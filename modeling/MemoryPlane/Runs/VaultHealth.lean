import MemoryPlane.Runs.Observations
import MemoryPlane.Services.VaultHealth

/-!
# Runs and the health of the vault

The writers of a vault keep its references: memory operations replace memories inside their
workspace and drop none, reflections cite memories of their workspace, and links end at memories
of theirs. Nothing checks the memory that a link names as its provenance, so a run keeps the vault
healthy exactly when its links name memories of their workspaces.
-/

namespace MemoryPlane

open ReflectionService GraphService VaultHealthService

/-- One write to the vault, with its arguments. -/
inductive VaultOperation where
  | memory (op : Operation)
  | reflect (tenantId workspaceId : UUID) (actor actorType : String)
  | link (command : LinkCommand)

/-- Identifiers in use. -/
def VaultStore.usedIds (x : VaultStore) : List UUID :=
  x.toInMemoryMemoryStore.usedIds ++ x.edges.rows.map fun e => e.id

namespace VaultOperation

variable (env : Deployment) (d : Draws) (x : VaultStore)

/-- The store that an operation leaves. -/
def run : VaultOperation → VaultStore
  | .memory op => { x with toInMemoryMemoryStore := (op.run env d x.toInMemoryMemoryStore).2 }
  | .reflect tenantId workspaceId actor actorType =>
    { x with toObservationStore := (ReflectionService.reflect env.runtime tenantId workspaceId
        actor actorType d x.toObservationStore).2 }
  | .link command => (GraphService.link command d x).2

/-- A bound on the identifiers that an operation draws and that name what it stores. -/
def drawCount : VaultOperation → ℕ
  | .memory op => op.drawCount x.toInMemoryMemoryStore
  | .reflect .. => 0
  | .link _ => 1

/-- A link that is accepted names no provenance, or a memory of the workspace. -/
def NamesProvenance : VaultOperation → Prop
  | .link c => c.Accepted x → ∀ p, c.provenanceItemId = some p →
      x.Holds c.tenantId c.workspaceId p
  | _ => True

end VaultOperation

/-- A run: the operations with what they draw. -/
abbrev VaultRun := List (VaultOperation × Draws)

namespace VaultRun

variable (env : Deployment)

/-- The states that a run passes through, the first one included. -/
def states (x : VaultStore) (ops : VaultRun) : List VaultStore :=
  ops.scanl (fun y op => op.1.run env op.2 y) x

/-- Drawn identifiers are distinct and new. -/
def Fresh : VaultStore → VaultRun → Prop
  | _, [] => True
  | x, op :: rest => op.2.Fresh (op.1.drawCount x) x.usedIds ∧ Fresh (op.1.run env op.2 x) rest

/-- Accepted links name no provenance, or a memory of the workspace. -/
def NamesProvenance : VaultStore → VaultRun → Prop
  | _, [] => True
  | x, op :: rest => op.1.NamesProvenance x ∧ NamesProvenance (op.1.run env op.2 x) rest

end VaultRun

section Steps

variable {env : Deployment} {x y : VaultStore} {d : Draws} {t w id : UUID} {op : VaultOperation}

theorem VaultStore.Holds.mono (h : x.Holds t w id) (hsub : x.items.rows ⊆ y.items.rows) :
    y.Holds t w id := by
  obtain ⟨i, hi, hrest⟩ := h
  exact ⟨i, hsub hi, hrest⟩

/-- Chains of revisions are intact in every workspace. -/
theorem parents_of_chained (hc : x.Chained) : ∀ i ∈ x.items.rows, i.tenantId = t →
    i.workspaceId = w → ∀ p, i.supersedesId = some p → ∃ parent ∈ x.items.rows,
      parent.id = p ∧ parent.tenantId = t ∧ parent.workspaceId = w ∧
        i.revision = parent.revision + 1 := by
  intro i hi ht hw p hp
  obtain ⟨parent, hmem, hid, hrank, hsame⟩ := hc.grounded i hi p hp
  exact ⟨parent, hmem, hid, hsame.tenant.trans ht, hsame.workspace.trans hw, hrank⟩

/-- The ledger is consistent and the references of all workspaces are intact. -/
structure VaultStore.Sound (x : VaultStore) : Prop where
  consistent : x.toLedger.Consistent
  intact : ∀ t w, x.Intact t w

theorem VaultStore.sound_empty : VaultStore.empty.Sound := by
  refine ⟨Ledger.consistent_empty, fun t w => ?_⟩
  constructor <;> simp [VaultStore.empty, ObservationStore.empty, InMemoryMemoryStore.empty,
    Ledger.empty]

/-- Memory operations drop no memory and leave edges and observations alone. -/
theorem VaultStore.Sound.memory (h : x.Sound) (op : Operation)
    (hd : d.Fresh (op.drawCount x.toInMemoryMemoryStore) x.toInMemoryMemoryStore.usedIds) :
    ((VaultOperation.memory op).run env d x).Sound := by
  have hkeeps : x.items.rows ⊆ ((VaultOperation.memory op).run env d x).items.rows :=
    op.keeps_items env h.consistent.chained hd
  have hconsistent : ((VaultOperation.memory op).run env d x).toLedger.Consistent := by
    obtain ⟨ws, hw⟩ := op.run_writes env h.consistent.chained hd
    change (op.run env d x.toInMemoryMemoryStore).2.toLedger.Consistent
    rw [hw.ledger]
    exact h.consistent.commitAll hw.admitted
  refine ⟨hconsistent, fun t w => ⟨parents_of_chained hconsistent.chained, ?_, ?_, ?_⟩⟩
  · intro e he ht hw
    obtain ⟨hsrc, hdst⟩ := (h.intact t w).endpoints e he ht hw
    exact ⟨hsrc.mono hkeeps, hdst.mono hkeeps⟩
  · intro e he ht hw p hp
    exact ((h.intact t w).provenance e he ht hw p hp).mono hkeeps
  · intro o ho ht hw id hid
    exact ((h.intact t w).evidence o ho ht hw id hid).mono hkeeps

/-- The observations of a reflection cite memories of its workspace. -/
theorem VaultStore.Sound.reflect (h : x.Sound) (t w : UUID) (actor actorType : String) :
    ((VaultOperation.reflect t w actor actorType).run env d x).Sound := by
  set y := (VaultOperation.reflect t w actor actorType).run env d x with hy
  have hledger : y.toLedger = x.toLedger := createAll_toLedger
  have hholds : ∀ t w id, x.Holds t w id → y.Holds t w id := by
    rintro t w id ⟨i, hi, hrest⟩
    exact ⟨i, by rw [hledger]; exact hi, hrest⟩
  have hconsistent : y.toLedger.Consistent := by
    rw [hledger]
    exact h.consistent
  refine ⟨hconsistent, fun t' w' => ⟨parents_of_chained hconsistent.chained, ?_, ?_, ?_⟩⟩
  · intro e he ht hw
    obtain ⟨hsrc, hdst⟩ := (h.intact t' w').endpoints e he ht hw
    exact ⟨hholds _ _ _ hsrc, hholds _ _ _ hdst⟩
  · intro e he ht hw p hp
    exact hholds _ _ _ ((h.intact t' w').provenance e he ht hw p hp)
  · intro o ho ht hw id hid
    obtain hold | ⟨-, k, v, latest, newest, b, hjudged, hbuilt, -⟩ := reflect_adds ho
    · exact hholds _ _ _ ((h.intact t' w').evidence o hold ht hw id hid)
    · rw [hbuilt.evidence, hjudged.evidence] at hid
      obtain ⟨i, hi, rfl⟩ := List.mem_map.mp hid
      obtain ⟨hmem, hin, -⟩ := mem_valueItems.mp hi
      apply hholds
      exact ⟨i, hmem, rfl, hin.tenant.trans (hbuilt.tenant.symm.trans ht),
        hin.workspace.trans (hbuilt.workspace.symm.trans hw)⟩

variable {c : LinkCommand}

/-- A link that names a memory of its workspace as provenance keeps the references. -/
theorem VaultStore.Sound.link (h : x.Sound) (hnames : (VaultOperation.link c).NamesProvenance x) :
    ((VaultOperation.link c).run env d x).Sound := by
  obtain ⟨haccepted, edge, hedge, hrun⟩ | ⟨-, e, hrun⟩ := link_cases c d x
  · have hstate : (VaultOperation.link c).run env d x = (x.saveEdge edge c.auditEvent).2 :=
      congrArg Prod.snd hrun
    rw [hstate]
    have hledger : (x.saveEdge edge c.auditEvent).2.toLedger = x.toLedger :=
      InMemoryMemoryStore.appendAuditEvent_toLedger ..
    have hholds : ∀ t w id, x.Holds t w id → (x.saveEdge edge c.auditEvent).2.Holds t w id := by
      rintro t w id ⟨i, hi, hrest⟩
      exact ⟨i, by rw [hledger]; exact hi, hrest⟩
    have hedges : ∀ e ∈ (x.saveEdge edge c.auditEvent).2.edges.rows, e ∈ x.edges.rows ∨ e = edge :=
      fun e he => (Table.mem_setDefault.mp he).imp id And.left
    have hfields : edge.tenantId = c.tenantId ∧ edge.workspaceId = c.workspaceId ∧
        edge.srcId = c.srcId ∧ edge.dstId = c.dstId ∧
          edge.provenanceItemId = c.provenanceItemId := by
      rw [hedge]
      exact ⟨rfl, rfl, rfl, rfl, rfl⟩
    obtain ⟨htenant, hworkspace, hsrc, hdst, hprov⟩ := hfields
    have hconsistent : (x.saveEdge edge c.auditEvent).2.toLedger.Consistent := by
      rw [hledger]
      exact h.consistent
    refine ⟨hconsistent, fun t w => ⟨parents_of_chained hconsistent.chained, ?_, ?_, ?_⟩⟩
    · intro e he ht hw
      obtain hold | rfl := hedges e he
      · obtain ⟨hs, hd⟩ := (h.intact t w).endpoints e hold ht hw
        exact ⟨hholds _ _ _ hs, hholds _ _ _ hd⟩
      · rw [hsrc, hdst, ← ht, ← hw, htenant, hworkspace]
        exact ⟨hholds _ _ _ haccepted.src, hholds _ _ _ haccepted.dst⟩
    · intro e he ht hw p hp
      obtain hold | rfl := hedges e he
      · exact hholds _ _ _ ((h.intact t w).provenance e hold ht hw p hp)
      · rw [← ht, ← hw, htenant, hworkspace]
        exact hholds _ _ _ (hnames haccepted p (hprov ▸ hp))
    · intro o ho ht hw id hid
      exact hholds _ _ _ ((h.intact t w).evidence o ho ht hw id hid)
  · have hstate : (VaultOperation.link c).run env d x = x := congrArg Prod.snd hrun
    rw [hstate]
    exact h

theorem VaultStore.Sound.run (h : x.Sound) (hd : d.Fresh (op.drawCount x) x.usedIds)
    (hnames : op.NamesProvenance x) : (op.run env d x).Sound := by
  cases op with
  | memory op =>
    apply h.memory
    exact ⟨hd.1, fun i hi hmem => hd.2 i hi (List.mem_append_left _ hmem)⟩
  | reflect t w actor actorType => exact h.reflect t w actor actorType
  | link c => exact h.link hnames

/-- After a link that names another provenance, the references are broken. -/
theorem not_intact_of_link (hd : d.Fresh (op.drawCount x) x.usedIds)
    (hnames : ¬ op.NamesProvenance x) : ¬ ∀ t w, (op.run env d x).Intact t w := by
  cases op with
  | memory op => exact absurd trivial hnames
  | reflect t w actor actorType => exact absurd trivial hnames
  | link c =>
    intro hintact
    apply hnames
    intro haccepted p hp
    obtain ⟨-, edge, hedge, hrun⟩ | ⟨hrejected, -⟩ := link_cases c d x
    · have hstate : (VaultOperation.link c).run env d x = (x.saveEdge edge c.auditEvent).2 :=
        congrArg Prod.snd hrun
      have hledger : (x.saveEdge edge c.auditEvent).2.toLedger = x.toLedger :=
        InMemoryMemoryStore.appendAuditEvent_toLedger ..
      -- the identifier is new, so the edge is stored
      have hnew : x.edges.find edge.id = none := by
        rw [Table.find_eq_none]
        intro e he hid
        apply hd.2 0 (Nat.zero_lt_one)
        apply List.mem_append_right
        have hdrawn : edge.id = d.uuid4 0 := by rw [hedge]; rfl
        rw [← hdrawn, ← hid]
        exact List.mem_map_of_mem he
      have hstored : edge ∈ (x.saveEdge edge c.auditEvent).2.edges.rows :=
        Table.mem_setDefault.mpr (.inr ⟨rfl, hnew⟩)
      rw [hstate] at hintact
      have hbroken := (hintact c.tenantId c.workspaceId).provenance edge hstored
        (by rw [hedge]; rfl) (by rw [hedge]; rfl) p (by rw [hedge]; exact hp)
      obtain ⟨i, hi, hrest⟩ := hbroken
      rw [hledger] at hi
      exact ⟨i, hi, hrest⟩
    · exact absurd haccepted hrejected

/-- A run from a sound store keeps all references exactly when its links name memories of their
workspaces. -/
theorem intact_iff_of_sound {ops : VaultRun} (h : x.Sound) (hd : VaultRun.Fresh env x ops) :
    (∀ y ∈ VaultRun.states env x ops, ∀ t w, y.Intact t w) ↔
      VaultRun.NamesProvenance env x ops := by
  induction ops generalizing x with
  | nil => simpa [VaultRun.states, VaultRun.NamesProvenance] using h.intact
  | cons op rest ih =>
    obtain ⟨hfresh, hrest⟩ := hd
    have hcons : VaultRun.states env x (op :: rest) =
        x :: VaultRun.states env (op.1.run env op.2 x) rest := List.scanl_cons
    rw [hcons, List.forall_mem_cons, VaultRun.NamesProvenance]
    by_cases hnames : op.1.NamesProvenance x
    · rw [ih (h.run hfresh hnames) hrest]
      exact ⟨fun hall => ⟨hnames, hall.2⟩, fun hall => ⟨h.intact, hall.2⟩⟩
    · refine ⟨fun hall => ?_, fun hall => absurd hall.1 hnames⟩
      have hfirst : op.1.run env op.2 x ∈ VaultRun.states env (op.1.run env op.2 x) rest := by
        cases rest <;> simp [VaultRun.states]
      exact absurd (hall.2 _ hfirst) (not_intact_of_link hfresh hnames)

end Steps

/-- The vault is healthy in all states of a run from the empty store exactly when the accepted
links of the run named no provenance or a memory of their workspace. -/
theorem vault_healthy_iff (env : Deployment) (ops : VaultRun)
    (hd : VaultRun.Fresh env .empty ops) :
    (∀ x ∈ VaultRun.states env .empty ops, ∀ t w, (inspect x t w).errorCount = 0) ↔
      VaultRun.NamesProvenance env .empty ops := by
  rw [← intact_iff_of_sound VaultStore.sound_empty hd]
  simp only [errorCount_eq_zero_iff]

/-- Two memories are retained, linked and reflected on. -/
def linkRun (provenance : Option UUID) : VaultRun :=
  [(.memory (.retain (plainRetain "Alice owns the vault." .workspace none) none), drawsFrom 10),
    (.memory (.retain (plainRetain "Bob owns the vault." .workspace none) none), drawsFrom 20),
    (.link
      { tenantId := UUID.ofNat 1
        workspaceId := UUID.ofNat 2
        srcId := UUID.ofNat 20
        dstId := UUID.ofNat 10
        edgeType := .contradicts
        provenanceItemId := provenance }, drawsFrom 30),
    (.reflect (UUID.ofNat 1) (UUID.ofNat 2) "maintenance" "system", drawsFrom 40)]

instance decidableHolds (x : VaultStore) (t w id : UUID) : Decidable (x.Holds t w id) :=
  inferInstanceAs (Decidable (∃ i ∈ x.items.rows, i.id = id ∧ i.tenantId = t ∧ i.workspaceId = w))

theorem vault_healthy_at_linked :
    VaultRun.Fresh lengthDeployment .empty (linkRun (some (UUID.ofNat 10))) ∧
    ∀ x ∈ VaultRun.states lengthDeployment .empty (linkRun (some (UUID.ofNat 10))),
      ∀ t w, (inspect x t w).errorCount = 0 := by
  have hfresh : VaultRun.Fresh lengthDeployment .empty (linkRun (some (UUID.ofNat 10))) :=
    ⟨by decide +kernel, by decide +kernel, by decide +kernel, by decide +kernel, trivial⟩
  refine ⟨hfresh, (vault_healthy_iff lengthDeployment
    (linkRun (some (UUID.ofNat 10))) hfresh).mpr ?_⟩
  refine ⟨trivial, trivial, ?_, trivial, trivial⟩
  rintro - p ⟨⟩
  change VaultStore.Holds _ (UUID.ofNat 1) (UUID.ofNat 2) (UUID.ofNat 10)
  decide +kernel

/-- A link is accepted whose provenance no store has ever held. -/
theorem unknown_provenance_linked :
    VaultRun.Fresh lengthDeployment .empty (linkRun (some (UUID.ofNat 77))) ∧
    ∃ x ∈ VaultRun.states lengthDeployment .empty (linkRun (some (UUID.ofNat 77))),
      (inspect x (UUID.ofNat 1) (UUID.ofNat 2)).issues.map (fun i => (i.severity, i.code)) =
        [(.error, "missing_graph_provenance")] ∧
      (inspect x (UUID.ofNat 1) (UUID.ofNat 2)).errorCount = 1 := by
  refine ⟨⟨by decide +kernel, by decide +kernel, by decide +kernel, by decide +kernel, trivial⟩,
    (linkRun (some (UUID.ofNat 77))).foldl
      (fun y op => op.1.run lengthDeployment op.2 y) .empty, ?_, ?_⟩
  · simp [VaultRun.states, linkRun]
  · decide +kernel

end MemoryPlane
