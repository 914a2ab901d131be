import CueBee.Support.StableSort
import CueBee.Runtime.OutputFreshness
import CueBee.Runtime.TaskSelection
import CueBee.Cache.PhysicalSharing

/-! # Which tasks are shed

`shed_load` drops queued tasks in one fixed order until the target is met or none is left. The
runtime then cancels the branches of the dropped tasks.
-/
namespace CueBee.Runtime
open Cache Transcript Raising PyStr VersionedKVManager

namespace VersionDeadlineScheduler
variable {s next : VersionDeadlineScheduler PyFloat}

/-- Kind, priority, age and place of submission, in this order of weight. -/
def dropRank (order : List TaskId) (task : AnalysisTask PyFloat) : ℕ ×ₗ ℤ ×ₗ WithBot (WithTop ℚ) ×ₗ ℕ :=
  toLex (dropOrder task.kind,toLex (task.priority,
    toLex (task.createdAt.rank,order.idxOf task.taskId)))

theorem dropRank_lt {order : List TaskId} {a b : AnalysisTask PyFloat} :
    dropRank order a < dropRank order b ↔ dropOrder a.kind < dropOrder b.kind ∨
      (dropOrder a.kind = dropOrder b.kind ∧ (a.priority < b.priority ∨
        (a.priority = b.priority ∧ (a.createdAt.rank < b.createdAt.rank ∨
          (a.createdAt.rank = b.createdAt.rank ∧
            order.idxOf a.taskId < order.idxOf b.taskId))))) := by
  simp only [dropRank,Prod.Lex.toLex_lt_toLex]

/-- Tasks of one kind and one priority are told apart by when they were created, unless that is
a NaN. -/
def Comparable (a b : AnalysisTask PyFloat) : Prop :=
  dropOrder a.kind = dropOrder b.kind → a.priority = b.priority →
    a.createdAt ≠ .nan ∧ b.createdAt ≠ .nan

theorem Comparable.symm {a b : AnalysisTask PyFloat} (h : Comparable a b) : Comparable b a :=
  fun hkind hpriority => (h hkind.symm hpriority.symm).symm

instance : Std.Symm Comparable := ⟨fun _ _ h => h.symm⟩

/-- The order of importance. -/
def DropsFirst (order : List TaskId) (a b : AnalysisTask PyFloat) : Prop :=
  Comparable a b ∧ dropRank order a < dropRank order b

theorem DropsFirst.trans {order : List TaskId} {a b d : AnalysisTask PyFloat}
    (h : DropsFirst order a b) (h' : DropsFirst order b d) : DropsFirst order a d := by
  refine ⟨fun hkind hpriority => ?_,h.2.trans h'.2⟩
  have hab := dropRank_lt.mp h.2
  have hbd := dropRank_lt.mp h'.2
  have hkinds : dropOrder a.kind = dropOrder b.kind := by omega
  have hpriorities : a.priority = b.priority := by omega
  exact ⟨(h.1 hkinds hpriorities).1,
    (h'.1 (hkinds.symm.trans hkind) (hpriorities.symm.trans hpriority)).2⟩

theorem keyLess_iff {a b : AnalysisTask PyFloat} (h : Comparable a b) :
    keyLess a b = true ↔ dropOrder a.kind < dropOrder b.kind ∨
      (dropOrder a.kind = dropOrder b.kind ∧ (a.priority < b.priority ∨
        (a.priority = b.priority ∧ a.createdAt.rank < b.createdAt.rank))) := by
  simp only [keyLess,Bool.or_eq_true,Bool.and_eq_true,decide_eq_true_eq,PyFloat.lt_iff]
  refine or_congr_right (and_congr_right fun hkind =>
    or_congr_right (and_congr_right fun hpriority => ?_))
  obtain ⟨ha,hb⟩ := h hkind hpriority
  simp [ha,hb]

/-- The sort key ranks two tasks by importance if they are in the order of submission. -/
theorem refines_dropsFirst {order : List TaskId} {a b : AnalysisTask PyFloat}
    (hcomparable : Comparable a b) (h : order.idxOf a.taskId < order.idxOf b.taskId) :
    RefinesAt (fun a b => dropsBefore a b = true) (DropsFirst order) a b := by
  unfold RefinesAt DropsFirst
  simp only [dropsBefore,Bool.not_eq_true',← Bool.not_eq_true,keyLess_iff hcomparable.symm,
    dropRank_lt,not_not]
  constructor
  · intro hnot
    refine ⟨hcomparable,?_⟩
    rcases lt_trichotomy (dropOrder a.kind) (dropOrder b.kind) with hkind | hkind | hkind
    · exact .inl hkind
    · refine .inr ⟨hkind,?_⟩
      rcases lt_trichotomy a.priority b.priority with hpriority | hpriority | hpriority
      · exact .inl hpriority
      · refine .inr ⟨hpriority,?_⟩
        have hle : a.createdAt.rank ≤ b.createdAt.rank :=
          not_lt.mp fun hlt => hnot (.inr ⟨hkind.symm,.inr ⟨hpriority.symm,hlt⟩⟩)
        exact hle.lt_or_eq.imp id fun heq => ⟨heq,h⟩
      · exact absurd (.inr ⟨hkind.symm,.inl hpriority⟩) hnot
    · exact absurd (.inl hkind) hnot
  · rintro (hkind | ⟨hkind,hpriority | ⟨hpriority,hcreated⟩⟩)
    · exact ⟨hcomparable.symm,.inl hkind⟩
    · exact ⟨hcomparable.symm,.inr ⟨hkind,.inl hpriority⟩⟩
    · exact ⟨hcomparable.symm,.inr ⟨hkind,.inr ⟨hpriority,.inl hcreated⟩⟩⟩

/-- The tasks stand in the table in the order of its keys. -/
theorem Named.places (hn : s.Named) : s.tasks.values.Pairwise (fun a b =>
    s.tasks.keys.idxOf a.taskId < s.tasks.keys.idxOf b.taskId) := by
  have hnodup : s.tasks.keys.Nodup := s.tasks.nodup_keys
  have hplaces := List.pairwise_map (f := AnalysisTask.taskId) (l := s.tasks.values)
    (R := fun i j => s.tasks.keys.idxOf i < s.tasks.keys.idxOf j)
  rw [← hplaces,hn.ids,List.pairwise_iff_getElem]
  intro i j hi hj hij
  rwa [hnodup.idxOf_getElem i hi,hnodup.idxOf_getElem j hj]

/-- Of any two queued tasks one is dropped first. -/
def Sortable (s : VersionDeadlineScheduler PyFloat) : Prop :=
  ∀ i j a b, i ≠ j → s.tasks.get? i = some a → s.tasks.get? j = some b → a.status = .queued →
    b.status = .queued → Comparable a b

theorem queuedInDropOrder_sorted (hn : s.Named) (hs : s.Sortable) :
    s.queuedInDropOrder.Pairwise (DropsFirst s.tasks.keys) := by
  refine pairwise_insertionSort (fun _ _ _ h h' => h.trans h') ?_
  refine (hn.places.filter _).imp_of_mem (fun {a b} ha hb h => refines_dropsFirst ?_ h)
  have hstored : ∀ {t}, t ∈ s.tasks.values.filter (fun task => task.status = .queued) →
      s.tasks.get? t.taskId = some t ∧ t.status = .queued := by
    intro t ht
    obtain ⟨hmem,hqueued⟩ := List.mem_filter.mp ht
    exact ⟨hn.get?_of_mem hmem,by simpa using hqueued⟩
  have hne : a.taskId ≠ b.taskId := fun he => h.ne (congrArg s.tasks.keys.idxOf he)
  exact hs _ _ a b hne (hstored ha).1 (hstored hb).1 (hstored ha).2 (hstored hb).2

def runningCount (s : VersionDeadlineScheduler PyFloat) : ℕ :=
  s.tasks.values.countP (fun task => task.status = .running)

theorem activeCount_eq (s : VersionDeadlineScheduler PyFloat) :
    s.activeCount = s.queuedInDropOrder.length + s.runningCount := by
  rw [s.queuedInDropOrder_perm.length_eq,← List.countP_eq_length_filter,activeCount,runningCount]
  induction s.tasks.values with
  | nil => rfl
  | cons task rest ih =>
    rw [List.countP_cons,List.countP_cons,List.countP_cons,ih]
    cases task.status <;> simp [TaskStatus.active] <;> omega

/-- Dropping a queued task makes one active task less. -/
theorem activeCount_shed {task : AnalysisTask PyFloat} (hget : s.tasks.get? task.taskId = some task)
    (hqueued : task.status = .queued) : (s.store task.shed).activeCount + 1 = s.activeCount := by
  have hset := Dict.countP_values_set hget task.shed (fun task => task.status.active)
  have hbefore : task.status.active = true := by
    rw [hqueued]
    rfl
  have hafter : ¬task.shed.status.active = true := Bool.false_ne_true
  rwa [if_pos hbefore,if_neg hafter] at hset

/-- The loop drops tasks from the front of the queue until it meets the target. -/
theorem shedLoop_count (targetActive : ℤ) {queue : List (AnalysisTask PyFloat)}
    (hnodup : (queue.map AnalysisTask.taskId).Nodup)
    (hqueue : ∀ task ∈ queue, s.tasks.get? task.taskId = some task ∧ task.status = .queued) :
    let k := min queue.length (s.activeCount - targetActive).toNat
    (shedLoop targetActive queue s).1 = (queue.take k).map AnalysisTask.taskId ∧
    (shedLoop targetActive queue s).2.activeCount + k = s.activeCount := by
  induction queue generalizing s with
  | nil => simp [shedLoop]
  | cons task rest ih =>
    intro k
    obtain ⟨htask,hrest⟩ := List.nodup_cons.mp hnodup
    obtain ⟨hget,hqueued⟩ := hqueue task List.mem_cons_self
    rw [shedLoop]
    split
    · rename_i hmore
      have htail : ∀ t ∈ rest, (s.store task.shed).tasks.get? t.taskId = some t ∧
          t.status = .queued := by
        intro t ht
        have hne : t.taskId ≠ task.taskId := fun he => htask (he ▸ List.mem_map.mpr ⟨t,ht,rfl⟩)
        rw [get?_store,AnalysisTask.taskId_shed,if_neg hne]
        exact hqueue t (List.mem_cons_of_mem task ht)
      have hless := activeCount_shed hget hqueued
      obtain ⟨hdropped,hcount⟩ := ih hrest htail
      have hk : k = min rest.length ((s.store task.shed).activeCount - targetActive).toNat + 1 := by
        show min (rest.length + 1) _ = _
        omega
      rw [hk,List.take_succ_cons,List.map_cons,← hdropped]
      refine ⟨rfl,?_⟩
      show (shedLoop targetActive rest (s.store task.shed)).2.activeCount + _ = _
      omega
    · rename_i hmet
      have hk : k = 0 := by
        show min _ _ = _
        omega
      rw [hk]
      exact ⟨rfl,rfl⟩

/-- `shed_load` drops the first tasks of the queue in the order of their ranks, and no more than
it has to. -/
structure ShedInOrder (targetActive : ℤ) (dropped : List TaskId)
    (s next : VersionDeadlineScheduler PyFloat) : Prop where
  inOrder : ∃ queue : List (AnalysisTask PyFloat),
    queue.Perm (s.tasks.values.filter (fun task => task.status = .queued)) ∧
    queue.Pairwise (DropsFirst s.tasks.keys) ∧
    dropped <+: queue.map AnalysisTask.taskId
  idle : s.activeCount ≤ targetActive → dropped = []
  met : targetActive < s.activeCount → (next.activeCount : ℤ) = max targetActive s.runningCount
  order : next.tasks.keys = s.tasks.keys
  tasks : ∀ id, next.tasks.get? id = (s.tasks.get? id).map (fun task =>
    if id ∈ dropped then { task with status := .dropped, cancelReason := some .overloadShed }
    else task)
  queued : ∀ id ∈ dropped, ∃ task, s.tasks.get? id = some task ∧ task.status = .queued
  spared : ∀ id task other left, id ∈ dropped → s.tasks.get? id = some task →
    next.tasks.get? other = some left → left.status = .queued →
    DropsFirst s.tasks.keys task left

theorem shedLoad_takes (hn : s.Named) {targetActive : ℤ} {dropped : List TaskId}
    (hrun : shedLoad targetActive s = .ok dropped next) :
    let k := min s.queuedInDropOrder.length (s.activeCount - targetActive).toNat
    dropped = (s.queuedInDropOrder.take k).map AnalysisTask.taskId ∧
      next.activeCount + k = s.activeCount := by
  have hcount := shedLoop_count targetActive hn.nodup_dropOrder fun _ ht => hn.of_dropOrder ht
  unfold shedLoad at hrun
  split at hrun
  · cases hrun
  · cases hrun
    exact hcount

/-- With the target 0 no task stays queued. -/
theorem shedLoad_zero (hn : s.Named) {dropped : List TaskId}
    (hrun : shedLoad 0 s = .ok dropped next) {id : TaskId} {task : AnalysisTask PyFloat}
    (hget : s.tasks.get? id = some task) (hqueued : task.status = .queued) : id ∈ dropped := by
  obtain ⟨hdropped,-⟩ := shedLoad_takes hn hrun
  have hactive := s.activeCount_eq
  have hall : min s.queuedInDropOrder.length (s.activeCount - (0 : ℤ)).toNat =
      s.queuedInDropOrder.length := by omega
  rw [hall,List.take_length] at hdropped
  rw [hdropped]
  refine List.mem_map.mpr ⟨task,s.queuedInDropOrder_perm.mem_iff.mpr ?_,hn id task hget⟩
  exact List.mem_filter.mpr ⟨(Dict.mem_values_iff _ _).mpr ⟨id,hget⟩,by simpa using hqueued⟩

theorem shedLoad_inOrder (hn : s.Named) (hs : s.Sortable) {targetActive : ℤ}
    (htarget : 0 ≤ targetActive) :
    ∃ dropped next, shedLoad targetActive s = .ok dropped next ∧
      ShedInOrder targetActive dropped s next := by
  obtain ⟨dropped,next,hrun,hshed⟩ := shedLoad_ok hn htarget
  obtain ⟨hdropped,hcount⟩ := shedLoad_takes hn hrun
  set k := min s.queuedInDropOrder.length (s.activeCount - targetActive).toNat
  have hsplit := queuedInDropOrder_sorted hn hs
  have hactive := s.activeCount_eq
  have hkeys := keys_shedLoad hn targetActive
  rw [after_ok hrun] at hkeys
  refine ⟨dropped,next,hrun,⟨s.queuedInDropOrder,s.queuedInDropOrder_perm,hsplit,?_⟩,?_,?_,hkeys,
    hshed.tasks,hshed.queued,?_⟩
  · rw [hdropped]
    exact (List.take_prefix k _).map _
  · intro hmet
    have hk : k = 0 := by omega
    rw [hdropped,hk]
    rfl
  · intro hmore
    omega
  · intro id task other left hid htask hleft hqueued
    rw [← List.take_append_drop k s.queuedInDropOrder] at hsplit
    refine (List.pairwise_append.mp hsplit).2.2 task ?_ left ?_
    · rw [hdropped] at hid
      obtain ⟨task',ht',rfl⟩ := List.mem_map.mp hid
      rw [(hn.of_dropOrder (List.mem_of_mem_take ht')).1,Option.some.injEq] at htask
      exact htask ▸ ht'
    · -- a task that is queued after the call was queued before it, and is not dropped
      rw [hshed.tasks] at hleft
      obtain ⟨before,hbefore,hmap⟩ := Option.map_eq_some_iff.mp hleft
      by_cases hother : other ∈ dropped
      · rw [if_pos hother] at hmap
        rw [← hmap] at hqueued
        cases hqueued
      · rw [if_neg hother] at hmap
        subst hmap
        have hstored : before ∈ s.queuedInDropOrder := by
          refine s.queuedInDropOrder_perm.mem_iff.mpr (List.mem_filter.mpr ⟨?_,by simpa using hqueued⟩)
          exact (Dict.mem_values_iff _ _).mpr ⟨other,hbefore⟩
        rw [← List.take_append_drop k s.queuedInDropOrder,List.mem_append] at hstored
        refine hstored.resolve_left fun htake => hother ?_
        rw [hdropped]
        exact List.mem_map.mpr ⟨before,htake,hn other before hbefore⟩

/-- An order of the queue in which each task is dropped first tells all of them apart. -/
theorem ShedInOrder.sortable (hn : s.Named) {targetActive : ℤ} {dropped : List TaskId}
    (h : ShedInOrder targetActive dropped s next) : s.Sortable := by
  obtain ⟨queue,hperm,hsorted,-⟩ := h.inOrder
  intro i j a b hij ha hb hqa hqb
  have hmem : ∀ {id task}, s.tasks.get? id = some task → task.status = .queued → task ∈ queue := by
    intro id task hget hqueued
    refine hperm.mem_iff.mpr (List.mem_filter.mpr ⟨?_,by simpa using hqueued⟩)
    exact (Dict.mem_values_iff _ _).mpr ⟨id,hget⟩
  have hcomparable : queue.Pairwise Comparable := hsorted.imp fun h => h.1
  have hne : a ≠ b := by
    rintro rfl
    exact hij ((hn i a ha).symm.trans (hn j a hb))
  exact hcomparable.forall (hmem ha hqa) (hmem hb hqb) hne

end VersionDeadlineScheduler

/-- No references are lost but those of the branches in `released`. -/
structure RefsKept (released : BranchId → Prop) (m next : VersionedKVManager) : Prop where
  sound : next.Sound
  sessions : ∀ t, next.sessionRefs t = m.sessionRefs t
  branches : ∀ id, ¬released id → next.branches.get? id = m.branches.get? id

section References
variable {released : BranchId → Prop} {m kv : VersionedKVManager} {g : BranchGraph} {id : BranchId}

theorem RefsKept.releaseBranch (h : RefsKept released m kv) (hid : released id) {freed : List ℕ}
    {next : VersionedKVManager} (hrun : VersionedKVManager.releaseBranch id kv = .ok freed next)
    (hsound : next.Sound) : RefsKept released m next := by
  obtain ⟨hsharing,-⟩ := releaseBranch_sharing h.sound hrun
  refine ⟨hsound,fun t => ?_,fun other hother => ?_⟩
  · rw [hsharing.sessions t (by rintro ⟨⟩),h.sessions]
  · have hne : some id ≠ some other := by
      rintro ⟨⟩
      exact hother hid
    rw [hsharing.branches other hne,h.branches other hother]

theorem RefsKept.cancel (h : RefsKept released m g.kv) (hn : g.Named) (hid : released id) :
    RefsKept released m (after (BranchGraph.cancel id) g).kv ∧
    (after (BranchGraph.cancel id) g).Named := by
  cases hget : g.branches.get? id with
  | none =>
    have hraise : BranchGraph.get id g = .error (.unknownBranch id) g := by
      simp only [BranchGraph.get,hget]
    have hrun : BranchGraph.cancel id g = .error (.unknownBranch id) g := bind_error hraise
    rw [after_error hrun]
    exact ⟨h,hn⟩
  | some branch =>
    by_cases hactive : branch.status.active = true
    · obtain ⟨freed,kv,hrel,hsound,-⟩ := releaseBranch_ok (b := id) h.sound
      let cancelled : Branch := { branch with status := .cancelled }
      have hrelease : BranchGraph.onKV (VersionedKVManager.releaseBranch id) (g.store cancelled) =
          .ok freed { g.store cancelled with kv := kv } := focus_ok hrel
      have hrun : BranchGraph.cancel id g = .ok () { g.store cancelled with kv := kv } := by
        simp only [BranchGraph.cancel,bind_ok (BranchGraph.get_ok hget),if_pos hactive,
          bind_ok (modify_apply _ g)]
        exact bind_ok hrelease
      rw [after_ok hrun]
      have hname := hn id branch hget
      exact ⟨h.releaseBranch hid hrel hsound,
        BranchGraph.named_store hn cancelled (hname.1.trans hname.2)⟩
    · rw [after_ok (BranchGraph.cancel_inactive hget (Bool.of_not_eq_true hactive))]
      exact ⟨h,hn⟩

end References

namespace CueBeeRuntime
variable {S : Type} {c : Services S} {r next : CueBeeRuntime S}

/-- The loop over the dropped tasks has released no other references than those. -/
def ReleasedOnly (released : BranchId → Prop) (m : VersionedKVManager) (r : CueBeeRuntime S) : Prop :=
  RefsKept released m r.kv ∧ r.branches.Named

/-- The loop over the dropped tasks releases the references of their branches only. -/
theorem keeps_refs_cancelDropped {released : BranchId → Prop} {m : VersionedKVManager}
    {ids : List TaskId} (hids : ∀ j ∈ ids, released (branchIdOf j)) :
    Keeps (ReleasedOnly released m : CueBeeRuntime S → Prop) (cancelDropped ids) := by
  induction ids with
  | nil => exact keeps_pure _
  | cons j rest ih =>
    intro r hr
    cases hget : r.branches.branches.get? (branchIdOf j) with
    | none =>
      have hraise : BranchGraph.forTask j r.branches =
          .error (.unknownBranch (branchIdOf j)) r.branches := by
        simp only [BranchGraph.forTask,BranchGraph.get,hget]
      have hrun : cancelDropped (j :: rest) r = .error _ r := bind_error (focus_error hraise)
      rwa [after_error hrun]
    | some branch =>
      have hid : branch.branchId = branchIdOf j := (hr.2 _ branch hget).1
      have hforTask : onGraph (BranchGraph.forTask j) r = .ok branch r :=
        onGraph_ok (BranchGraph.get_ok hget)
      have hcancel : Keeps (ReleasedOnly released m : CueBeeRuntime S → Prop)
          (onGraph (BranchGraph.cancel branch.branchId)) := by
        refine keeps_focus fun r hr => ?_
        have hafter := hr.1.cancel hr.2 (hid ▸ hids j List.mem_cons_self)
        cases hx : BranchGraph.cancel branch.branchId r.branches with
        | ok u g => exact .of_ok hx (after_ok hx ▸ hafter)
        | error e g => exact .of_error hx (after_error hx ▸ hafter)
      have hinc : Keeps (ReleasedOnly released m : CueBeeRuntime S → Prop)
          (inc .tasksOverloadDropped 1) := keeps_modify fun _ hr => hr
      have hrest := keeps_bind hcancel fun _ => keeps_bind hinc fun _ =>
        ih fun i hi => hids i (List.mem_cons_of_mem j hi)
      have hstep : after (cancelDropped (j :: rest)) r = after (do
          onGraph (BranchGraph.cancel branch.branchId)
          inc .tasksOverloadDropped 1
          cancelDropped rest) r := by
        simp only [after,cancelDropped,bind_ok hforTask]
      rw [hstep]
      exact hrest r hr

theorem scheduler_cancelDropped (q : VersionDeadlineScheduler PyFloat) (ids : List TaskId) :
    Keeps (fun r : CueBeeRuntime S => r.scheduler = q) (cancelDropped ids) := by
  induction ids with
  | nil => exact keeps_pure _
  | cons j rest ih =>
    exact keeps_bind (keeps_onGraph (fun _ _ h => h) _) fun branch =>
      keeps_bind (keeps_onGraph (fun _ _ h => h) _) fun _ =>
        keeps_bind (keeps_modify fun _ h => h) fun _ => ih

/-- The branches of the dropped tasks are cancelled and have no references any more; nothing
else has changed in graph, cache and transcripts, and the pool counts what is left. -/
structure BranchesShed (dropped : List TaskId) (r next : CueBeeRuntime S) : Prop where
  found : ∀ j ∈ dropped, ∃ branch, r.branches.branches.get? (branchIdOf j) = some branch
  branches : ∀ id, next.branches.branches.get? id = (r.branches.branches.get? id).map
    (fun branch => if id ∈ dropped.map branchIdOf then { branch with status := .cancelled } else branch)
  released : ∀ id ∈ dropped.map branchIdOf, next.kv.branches.get? id = none
  kept : ∀ id, id ∉ dropped.map branchIdOf → next.kv.branches.get? id = r.kv.branches.get? id
  sessionRefs : ∀ t, next.kv.sessionRefs t = r.kv.sessionRefs t
  branchReads : ∀ id, id ∉ dropped.map branchIdOf → next.kv.view.branches id = r.kv.view.branches id
  sessionReads : next.kv.view.sessions = r.kv.view.sessions
  counts : ExactCounts next.kv
  sessions : next.sessions = r.sessions
  revisions : next.revisions = r.revisions

/-- The branch of no queued task has ended otherwise than by a cancellation. -/
def Sheddable (r : CueBeeRuntime S) : Prop :=
  ∀ j task branch, r.scheduler.tasks.get? j = some task → task.status = .queued →
    r.branches.branches.get? (branchIdOf j) = some branch →
    branch.status ≠ .invalidated ∧ branch.status ≠ .completed

theorem Inv.sheddable (h : Inv r) : Sheddable r := by
  intro j task branch ht hqueued hb
  obtain ⟨branch',hb',hpaired⟩ := h.paired j task ht
  rw [hb,Option.some.injEq] at hb'
  rw [hb',hpaired.statuses.queued hqueued]
  exact ⟨nofun,nofun⟩

theorem Branch.cancel_eq_iff {branch : Branch} :
    branch.cancel = { branch with status := .cancelled } ↔
      branch.status ≠ .invalidated ∧ branch.status ≠ .completed := by
  obtain ⟨_,_,_,_,_,_,_,_,status,_⟩ := branch
  cases status <;> simp [Branch.cancel,BranchStatus.active]

/-- The two halves of `shed_load`. -/
theorem shedLoad_scheduler {targetActive : ℤ} {dropped : List TaskId}
    (hrun : shedLoad targetActive r = .ok dropped next) :
    ∃ q, VersionDeadlineScheduler.shedLoad targetActive r.scheduler = .ok dropped q ∧
      ∃ u, cancelDropped dropped { r with scheduler := q } = .ok u next := by
  obtain ⟨ids,mid,hfirst,hrest⟩ := bind_ok_iff.mp hrun
  obtain ⟨u,last,hloop,hpure⟩ := bind_ok_iff.mp hrest
  cases hpure
  cases hx : VersionDeadlineScheduler.shedLoad targetActive r.scheduler with
  | error e q =>
    rw [show onScheduler (VersionDeadlineScheduler.shedLoad targetActive) r = .error _ _ from
      focus_error hx] at hfirst
    cases hfirst
  | ok ids' q =>
    rw [onScheduler_ok hx] at hfirst
    cases hfirst
    exact ⟨q,rfl,u,hloop⟩

/-- What `shed_load` does for every target. -/
def ShedsInOrder (r : CueBeeRuntime S) : Prop :=
  ∀ targetActive : ℤ, 0 ≤ targetActive → ∃ dropped next, shedLoad targetActive r = .ok dropped next ∧
    VersionDeadlineScheduler.ShedInOrder targetActive dropped r.scheduler next.scheduler ∧
    BranchesShed dropped r next

theorem shedLoad_branches (h : InOrder r) (hsortable : r.scheduler.Sortable)
    (hsheddable : Sheddable r) : ShedsInOrder r := by
  intro targetActive htarget
  cases loadShed h targetActive with
  | negative hneg hrun => exact absurd htarget (not_le.mpr hneg)
  | shed dropped next hqueued heffect hrun =>
    obtain ⟨ids,q,hshed,hinOrder⟩ :=
      VersionDeadlineScheduler.shedLoad_inOrder h.tasksNamed hsortable htarget
    obtain ⟨q',hfirst,u,hloop⟩ := shedLoad_scheduler hrun
    rw [hshed] at hfirst
    cases hfirst
    have hq : next.scheduler = q := (scheduler_cancelDropped q dropped).ok rfl hloop
    have hbefore : ReleasedOnly (fun id => id ∈ dropped.map branchIdOf) r.kv
        { r with scheduler := q } := ⟨⟨h.sound,fun _ => rfl,fun _ _ => rfl⟩,h.named⟩
    have hrefs : ReleasedOnly (fun id => id ∈ dropped.map branchIdOf) r.kv next :=
      (keeps_refs_cancelDropped (fun j hj => List.mem_map.mpr ⟨j,hj,rfl⟩)).ok hbefore hloop
    refine ⟨dropped,next,hrun,hq ▸ hinOrder,?_,?_,?_,hrefs.1.branches,
      hrefs.1.sessions,heffect.kept,heffect.reads,hrefs.1.sound.exactCounts,heffect.sessions,
      heffect.revisions⟩
    · intro j hj
      obtain ⟨task,ht,-⟩ := hqueued j hj
      obtain ⟨branch,hbranch,-⟩ := h.attached j task ht
      exact ⟨branch,hbranch⟩
    · intro id
      rw [heffect.branches]
      refine Option.map_congr fun branch hbranch => ?_
      unfold cancelBranches
      split
      · next hid =>
        obtain ⟨j,hj,rfl⟩ := List.mem_map.mp hid
        obtain ⟨task,ht,hstatus⟩ := hqueued j hj
        exact Branch.cancel_eq_iff.mpr (hsheddable j task branch ht hstatus hbranch)
      · rfl
    · exact fun id hid => view_branch_none.mp (heffect.dropped id hid)

/-- The target 0 drops every queued task, and cancels no branch that has ended. -/
theorem ShedsInOrder.sheddable (h : InOrder r) (hshed : ShedsInOrder r) : Sheddable r := by
  obtain ⟨dropped,next,hrun,-,hbranches⟩ := hshed 0 le_rfl
  intro j task branch ht hqueued hb
  cases loadShed h 0 with
  | negative hneg hrun' => exact absurd hneg (lt_irrefl 0)
  | shed dropped' next' hqueued' heffect hrun' =>
    rw [hrun] at hrun'
    cases hrun'
    obtain ⟨q,hfirst,-⟩ := shedLoad_scheduler hrun
    have hj := VersionDeadlineScheduler.shedLoad_zero h.tasksNamed hfirst ht hqueued
    have hid : branchIdOf j ∈ dropped.map branchIdOf := List.mem_map_of_mem hj
    have hnext := (heffect.branches (branchIdOf j)).symm.trans (hbranches.branches (branchIdOf j))
    rw [hb,Option.map_some,Option.map_some,Option.some.injEq,cancelBranches,if_pos hid,
      if_pos hid] at hnext
    exact Branch.cancel_eq_iff.mp hnext

theorem shedsInOrder_iff (h : InOrder r) :
    ShedsInOrder r ↔ r.scheduler.Sortable ∧ Sheddable r := by
  refine ⟨fun hshed => ⟨?_,hshed.sheddable h⟩,fun hs => shedLoad_branches h hs.1 hs.2⟩
  obtain ⟨_,_,_,hinOrder,_⟩ := hshed 0 le_rfl
  exact hinOrder.sortable h.tasksNamed

end CueBeeRuntime
open LiveRuntime

/-- `shed_load` of any scheduler and of any runtime. A branch that an event has invalidated
belongs to a queued task only after a submission that was abandoned for its deadline. -/
theorem least_important_shed_iff {S : Type} (c : Services S) (blockSize : ℕ) (hblock : 0 < blockSize)
    (admissionCap : ℕ) (hcap : 0 < admissionCap) (weights : SchedulerWeights PyFloat) (e : S) :
    (∀ calls, let start := VersionDeadlineScheduler.start admissionCap hcap weights
      let s := runAll VersionDeadlineScheduler.exec calls start
      s.tasks.keys = VersionDeadlineScheduler.submittedIds calls start ∧
      ((∀ targetActive : ℤ, 0 ≤ targetActive → ∃ dropped next,
        VersionDeadlineScheduler.shedLoad targetActive s = .ok dropped next ∧
        VersionDeadlineScheduler.ShedInOrder targetActive dropped s next) ↔ s.Sortable)) ∧
    ∀ moves, let start := LiveRuntime.init blockSize hblock admissionCap hcap e
      let r := (runAll (act c) moves start).runtime
      (CueBeeRuntime.ShedsInOrder r ↔ r.scheduler.Sortable ∧ CueBeeRuntime.Sheddable r) ∧
      (c.tokenizer.Total → c.engine.NeverRaises → RunMeets (act c) SafeMove moves start →
        CueBeeRuntime.Sheddable r) := by
  constructor
  · intro calls start s
    have hs := VersionDeadlineScheduler.submitted_run admissionCap hcap weights calls
    refine ⟨hs.named.ids.symm.trans hs.order,fun hshed => ?_,fun hsortable targetActive =>
      VersionDeadlineScheduler.shedLoad_inOrder hs.named hsortable⟩
    obtain ⟨_,_,_,hinOrder⟩ := hshed 0 le_rfl
    exact hinOrder.sortable hs.named
  · intro moves start r
    have hstart := flying_init (S := S) blockSize hblock admissionCap hcap e
    refine ⟨CueBeeRuntime.shedsInOrder_iff (flying_run moves hstart).inOrder,
      fun htok hengine hsafe => ?_⟩
    have hinv := LiveRuntime.inv_run htok hengine hstart
      (CueBeeRuntime.inv_init blockSize hblock admissionCap hcap e) hsafe
    exact hinv.sheddable

/-- A question and a hint wait, and one of them may stay. -/
theorem least_important_shed_iff_hint :
    let moves : List (Move Unit) := [
      .handleEvent (heard "g" 0 .appendPartial "hello" (by decide) (by decide)),
      .submitTask (asked "q" .userQuery (lit "why")),.submitTask (asked "t" .proactiveHint (lit "why"))]
    let r := (runAll (act (quietServices lenientTokenizer)) moves
      (LiveRuntime.init 4 (by decide) 8 (by decide) ())).runtime
    ∃ next, CueBeeRuntime.shedLoad 1 r = .ok [lit "t"] next ∧
      CueBeeRuntime.BranchesShed [lit "t"] r next := by
  intro moves r
  have hout : outcome (CueBeeRuntime.shedLoad 1) r = .ok [lit "t"] := by decide +kernel
  obtain ⟨hsheds,hsafe⟩ := (least_important_shed_iff (quietServices lenientTokenizer) 4 (by decide) 8
    (by decide) .standard ()).2 moves
  have hsheddable := hsafe lenientTokenizer_total quietEngine_neverRaises
    ⟨trivial,fun _ => .inl (by decide +kernel),fun _ => .inl (by decide +kernel),trivial⟩
  have hages : ∀ task ∈ r.scheduler.tasks.values, task.createdAt ≠ .nan := by decide +kernel
  have hsortable : r.scheduler.Sortable := by
    intro i j a b _ ha hb _ _ _ _
    exact ⟨hages a ((Dict.mem_values_iff _ _).mpr ⟨i,ha⟩),
      hages b ((Dict.mem_values_iff _ _).mpr ⟨j,hb⟩)⟩
  obtain ⟨dropped,next,hrun,-,hbranches⟩ := hsheds.mpr ⟨hsortable,hsheddable⟩ 1 (by decide)
  rw [outcome_ok hrun,Except.ok.injEq] at hout
  subst hout
  exact ⟨next,hrun,hbranches⟩

/-- A hint with a deadline of `10 ^ 400` milliseconds is abandoned, and the revision that
invalidates its branch and that of another hint raises before it cancels the other task. The
overload drops this task, and its branch stays invalidated. -/
theorem endless_hint_spares_branch :
    let moves : List (Move Unit) := [
      .handleEvent (heard "g" 0 .appendPartial "hello" (by decide) (by decide)),
      .submitTask (askedEndless "t" .proactiveHint (lit "why")),
      .submitTask (asked "u" .proactiveHint (lit "who")),
      .handleEvent (heard "g" 1 .revisePartial "help" (by decide) (by decide))]
    let r := (runAll (act (quietServices lenientTokenizer)) moves
      (LiveRuntime.init 4 (by decide) 8 (by decide) ())).runtime
    ∃ next, CueBeeRuntime.shedLoad 0 r = .ok [lit "u"] next ∧
      (next.branches.branches.get? (branchIdOf (lit "u"))).map Branch.status = some .invalidated ∧
      ¬CueBeeRuntime.BranchesShed [lit "u"] r next := by
  intro moves r
  have hout : outcome (CueBeeRuntime.shedLoad 0) r = .ok [lit "u"] := by decide +kernel
  have hended : ((after (CueBeeRuntime.shedLoad 0) r).branches.branches.get?
      (branchIdOf (lit "u"))).map Branch.status = some .invalidated := by decide +kernel
  cases hrun : CueBeeRuntime.shedLoad 0 r with
  | error e next =>
    rw [outcome_error hrun] at hout
    cases hout
  | ok dropped next =>
    rw [outcome_ok hrun,Except.ok.injEq] at hout
    rw [after_ok hrun] at hended
    subst hout
    refine ⟨next,rfl,hended,fun hshed => ?_⟩
    obtain ⟨branch,hbranch⟩ := hshed.found (lit "u") (List.mem_singleton_self _)
    rw [hshed.branches,hbranch,Option.map_some,Option.map_some,
      if_pos (branchIdOf_mem_map.mpr (List.mem_singleton_self _))] at hended
    cases hended

end CueBee.Runtime
