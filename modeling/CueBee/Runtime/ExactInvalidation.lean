import CueBee.Runtime.OutputFreshness

/-! # What an accepted event invalidates

Versions only grow and every changed range begins behind the commit frontier, so that an
event reaches the active branches of its session whose kind requires the current version
and no others. The other kinds keep their dependency, and their outputs pass the gate.
-/
namespace CueBee.Runtime
open Cache Transcript Raising ConversationSession SessionManager PyStr CueBeeRuntime

/-- What the kind of a branch decides. -/
structure Classified (b : Branch) : Prop where
  requires : b.requiresCurrentVersion = b.kind.currentVersion
  spared : b.kind.currentVersion = false → b.status ≠ .invalidated

theorem Classified.restatus {b b' : Branch} (h : Classified b) (hb : SameBranch b b')
    (hs : b'.status = .invalidated → b.status = .invalidated ∨ b.kind.currentVersion = true) :
    Classified b' := by
  have hkind : b'.kind = b.kind := by rw [hb]
  have hreq : b'.requiresCurrentVersion = b.requiresCurrentVersion := by rw [hb]
  refine ⟨by rw [hreq,hkind,h.requires],fun hk hi => ?_⟩
  rw [hkind] at hk
  rcases hs hi with hold | hcurrent
  · exact h.spared hk hold
  · rw [hk] at hcurrent
    cases hcurrent

theorem classified_submitted (a : Submission) (session : ConversationSession) :
    Classified (submittedBranch a session) := ⟨rfl,fun _ => nofun⟩

/-- The branches that an accepted event of their session invalidates. -/
def Tracks (event : STTEvent) (b : Branch) : Prop :=
  b.sessionId = event.sessionId ∧ b.status.active = true ∧ b.kind.currentVersion = true

instance (event : STTEvent) (b : Branch) : Decidable (Tracks event b) :=
  inferInstanceAs (Decidable (_ ∧ _ ∧ _))

theorem stale_iff {tok : Tokenizer} {event : STTEvent} {diff : TranscriptDiff} {m : SessionManager}
    {session : ConversationSession} {b : Branch} (hacc : Accepted tok event m session diff)
    (hg : Grounded m b) (hc : Classified b) :
    BranchGraph.stale event.sessionId diff.changedRange diff.newVersion b = true ↔
      Tracks event b := by
  constructor
  · intro hst
    have hrequires := stale_requires hacc hg hst
    have hactive := stale_active hst
    simp only [BranchGraph.stale,Bool.and_eq_true,decide_eq_true_eq] at hst
    exact ⟨hst.1.1,hactive,hc.requires ▸ hrequires⟩
  · rintro ⟨hsession,hactive,hkind⟩
    obtain ⟨before,hget,hversion,-⟩ := hg.session
    have hnew := hacc.version_eq
    rw [hsession] at hget
    rw [current_of_some hget] at hnew
    have hne : b.baseVersion ≠ diff.newVersion := by omega
    simp [BranchGraph.stale,hsession,hactive,hc.requires,hkind,hne]

namespace CueBeeRuntime
variable {S : Type} {c : Services S} {r next : CueBeeRuntime S}

def AllClassified (r : CueBeeRuntime S) : Prop :=
  ∀ id b, r.branches.branches.get? id = some b → Classified b

theorem StatusChange.classified {fb : BranchId → Branch → Branch}
    {ft : TaskId → AnalysisTask PyFloat → AnalysisTask PyFloat} {released : BranchId → Prop}
    (h : StatusChange fb ft released r next) (hr : AllClassified r)
    (hfb : ∀ id b, r.branches.branches.get? id = some b → SameBranch b (fb id b) ∧
      ((fb id b).status = .invalidated → b.status = .invalidated ∨ b.kind.currentVersion = true)) :
    AllClassified next := by
  intro id b hb
  rw [h.branches] at hb
  obtain ⟨before,hbefore,rfl⟩ := Option.map_eq_some_iff.mp hb
  exact (hr id before hbefore).restatus (hfb id before hbefore).1 (hfb id before hbefore).2

theorem BranchAdded.classified {branch : Branch} {xs : Option (List Token)}
    (h : BranchAdded r next branch xs) (hr : AllClassified r) (hb : Classified branch) :
    AllClassified next := by
  intro id b hget
  rw [h.branches] at hget
  by_cases hid : id = branch.branchId
  · rw [if_pos hid,Option.some.injEq] at hget
    exact hget ▸ hb
  · rw [if_neg hid] at hget
    exact hr id b hget

/-- The records of the branches. -/
def HasBranches (branches : Dict BranchId Branch) (r : CueBeeRuntime S) : Prop :=
  r.branches.branches = branches

theorem branches_cancelInvalidated {branches : Dict BranchId Branch} (ids : List TaskId) :
    Keeps (HasBranches branches) (cancelInvalidated (S := S) c ids) := by
  induction ids with
  | nil => exact keeps_pure _
  | cons j rest ih =>
    have hcancel : Keeps (HasBranches branches)
        (onScheduler (S := S) (VersionDeadlineScheduler.cancel j .transcriptRevision)) :=
      keeps_focus (fun r hr => by
        unfold Ensures
        cases VersionDeadlineScheduler.cancel j .transcriptRevision r.scheduler with
        | ok a q | error e q => exact hr)
    exact keeps_bind hcancel (fun _ => keeps_bind (keeps_onEngine (fun _ _ hr => hr) _)
      (fun _ => keeps_bind (keeps_modify (fun _ hr => hr)) (fun _ => ih)))

/-- What an accepted event does to the branches, whether `handle_event` returns or raises. -/
theorem afterApply_branches (h : InOrder r) (event : STTEvent) (diff : TranscriptDiff) :
    (∀ id, (after (afterApply c event diff) r).branches.branches.get? id =
      (r.branches.branches.get? id).map (reviseBranch event diff id)) ∧
    ∀ o, outcome (afterApply c event diff) r = .ok o →
      ∀ j, j ∈ o.invalidatedTasks ↔ Reached event diff r (branchIdOf j) := by
  have hcount : (inc MetricName.sttEventsAccepted 1 : EStateM RuntimeError (CueBeeRuntime S) Unit) r =
      .ok () { r with metrics := MetricRegistry.inc .sttEventsAccepted 1 r.metrics } := rfl
  obtain ⟨ids,g,hrun,hmem,heffect⟩ := invalidate_effect (r := { r with
    metrics := MetricRegistry.inc .sttEventsAccepted 1 r.metrics }) h event diff
  have hcache : CacheFrame (HasBranches (S := S) g.branches) :=
    cacheFrame_of (fun _ _ hr => hr) (fun _ _ hr => hr) (fun _ _ hr => hr)
  have hensures : Ensures (afterApply c event diff) r
      (fun o next => HasBranches g.branches next ∧ o.invalidatedTasks = ids)
      (fun _ => HasBranches g.branches) := by
    refine ensures_bind.mpr (Ensures.of_ok hcount (ensures_bind.mpr (Ensures.of_ok hrun ?_)))
    refine Ensures.bind (keeps_iff.mp (branches_cancelInvalidated ids) _ rfl) (fun _ r2 h2 => ?_)
    refine Ensures.bind (keeps_iff.mp (hcache.updateCache event diff) r2 h2) (fun out r3 h3 => ?_)
    refine Ensures.bind (keeps_iff.mp (keeps_onKV (fun _ _ hr => hr) _) r3 h3) (fun _ r4 h4 => ?_)
    exact Ensures.of_ok rfl ⟨h4,rfl⟩
  cases hx : afterApply c event diff r with
  | ok o next =>
    obtain ⟨hbranches,hids⟩ := hensures.ok hx
    refine ⟨fun id => ?_,fun o' ho => ?_⟩
    · rw [after_ok hx,hbranches]
      exact heffect.branches id
    · rw [outcome_ok hx,Except.ok.injEq] at ho
      rw [← ho,hids]
      exact hmem
  | error e next =>
    refine ⟨fun id => ?_,fun o' ho => ?_⟩
    · rw [after_error hx,hensures.error hx]
      exact heffect.branches id
    · rw [outcome_error hx] at ho
      cases ho

/-- The event invalidates the branches that track its session, and reports their tasks. -/
structure Invalidates (event : STTEvent) (o : EventOutcome) (r next : CueBeeRuntime S) : Prop where
  branches : ∀ id, next.branches.branches.get? id = (r.branches.branches.get? id).map (fun b =>
    if Tracks event b then b.invalidate (next.sessions.current event.sessionId).version else b)
  tasks : ∀ j, j ∈ o.invalidatedTasks ↔
    ∃ b, r.branches.branches.get? (branchIdOf j) = some b ∧ Tracks event b

theorem handleEvent_invalidates {event : STTEvent} {o : EventOutcome} (h : InOrder r)
    (hc : AllClassified r) (hrun : handleEvent c event r = .ok o next) (ho : o.accepted = true) :
    Invalidates event o r next := by
  cases handled c event r with
  | dropped a hnorm hrun' =>
    rw [hrun'] at hrun
    cases hrun
    cases ho
  | rejected e a error m hnorm happly hrun' =>
    rw [hrun'] at hrun
    cases hrun
  | accepted e a diff m hnorm happly hrun' =>
    obtain ⟨-,-,hrelabel,-⟩ := RevisionAdapter.normalize_some hnorm
    have hsid : e.sessionId = event.sessionId := by rw [hrelabel]; rfl
    obtain ⟨-,session,hacc,hinst⟩ := apply_ok happly
    rw [hrun'] at hrun
    obtain ⟨hbranches,hids⟩ := afterApply_branches (c := c)
      (r := { r with revisions := a, sessions := m }) (Orderly.sessions h (hinst.progress hacc.advances))
      e diff
    have hmem := hids o (outcome_ok hrun)
    rw [after_ok hrun] at hbranches
    have hsessions : next.sessions = m := by
      have hkept := (Aloof.afterApply (c := c) (I := fun t : CueBeeRuntime S => t.sessions = m)
        ⟨fun _ _ h => h,fun _ _ h => h,fun _ _ h => h,fun _ _ h => h⟩ e diff)
        { r with revisions := a, sessions := m } rfl
      rwa [after_ok hrun] at hkept
    have htracks : ∀ id b, r.branches.branches.get? id = some b →
        (BranchGraph.stale e.sessionId diff.changedRange diff.newVersion b = true ↔
          Tracks event b) := by
      intro id b hb
      rw [stale_iff hacc (h.grounded id b hb) (hc id b hb),Tracks,Tracks,hsid]
    have hversion : diff.newVersion = (next.sessions.current event.sessionId).version := by
      rw [hsessions,← hsid,hinst.current_self]
      exact hacc.version_eq.2
    refine ⟨fun id => ?_,fun j => (hmem j).trans ⟨?_,?_⟩⟩
    · rw [hbranches]
      cases hb : r.branches.branches.get? id with
      | none => rw [Option.map_none,Option.map_none]
      | some b =>
        rw [Option.map_some,Option.map_some,reviseBranch,hversion]
        rw [hversion] at htracks
        simp only [htracks id b hb]
    · rintro ⟨b,hb,hst⟩
      exact ⟨b,hb,(htracks _ b hb).mp hst⟩
    · rintro ⟨b,hb,ht⟩
      exact ⟨b,hb,(htracks _ b hb).mpr ht⟩

theorem classified_handleEvent (event : STTEvent) (h : InOrder r)
    (hc : AllClassified r) : AllClassified (after (handleEvent c event) r) := by
  cases handled c event r with
  | dropped a hnorm hrun =>
    rw [after_ok hrun]
    exact hc
  | rejected e a error m hnorm happly hrun =>
    rw [after_error hrun]
    exact hc
  | accepted e a diff m hnorm happly hrun =>
    obtain ⟨-,session,hacc,hinst⟩ := apply_ok happly
    obtain ⟨hbranches,-⟩ := afterApply_branches (c := c)
      (r := { r with revisions := a, sessions := m }) (Orderly.sessions h (hinst.progress hacc.advances))
      e diff
    have hsame : after (handleEvent c event) r =
        after (afterApply c e diff) { r with revisions := a, sessions := m } := by
      unfold after
      rw [hrun]
    rw [hsame]
    intro id b' hb'
    rw [hbranches] at hb'
    obtain ⟨b,hb,rfl⟩ := Option.map_eq_some_iff.mp hb'
    refine (hc id b hb).restatus (reviseBranch_same e diff id b) (fun hi => ?_)
    by_cases hst : BranchGraph.stale e.sessionId diff.changedRange diff.newVersion b = true
    · exact Or.inr ((stale_iff hacc (h.grounded id b hb) (hc id b hb)).mp hst).2.2
    · rw [reviseBranch,if_neg hst] at hi
      exact Or.inl hi

theorem classified_submitTask (a : Submission) (h : InOrder r) (hc : AllClassified r) :
    AllClassified (after (submitTask c a) r) := by
  cases submitted c a h with
  | unknownSession hget hrun | branchExists session branch hget hbranch hrun =>
    rw [after_error hrun]
    exact hc
  | abandoned session e tokens next hget hnew hfail he hadded htasks hrun =>
    rw [after_error hrun]
    exact hadded.classified hc (classified_submitted a session)
  | refused session e next hget hnew hadded htasks hrun =>
    rw [after_error hrun]
    exact hadded.classified hc ⟨rfl,fun _ => nofun⟩
  | accepted session promptTokens deadline next hget hnew hencode hadded hdeadline htasks hrun =>
    rw [after_ok hrun]
    exact hadded.classified hc (classified_submitted a session)

theorem classified_popped {popped : Option TaskId}
    {ft : TaskId → AnalysisTask PyFloat → AnalysisTask PyFloat}
    {released : BranchId → Prop} (h : StatusChange (popBranch popped) ft released r next)
    (hc : AllClassified r) : AllClassified next := by
  refine h.classified hc (fun id b _ => ?_)
  unfold popBranch
  split
  · exact ⟨rfl,nofun⟩
  · exact ⟨.refl b,Or.inl⟩

theorem classified_finishNext {flight : Flight} (h : InOrder r) (hf : InFlight r flight)
    (hc : AllClassified r) (result : EngineResult) :
    AllClassified (after (finishNext flight result) r) := by
  cases finished h hf result with
  | allowed branch session next hbranch hrunning hsession hallow heffect hrun =>
    rw [after_ok hrun]
    refine heffect.toStatusChange.classified hc
      (fun id b _ => ⟨completeBranch_same _ id b,fun hi => ?_⟩)
    unfold completeBranch at hi
    split at hi
    · cases hi
    · exact Or.inl hi
  | refused branch session reason next hbranch hsession hrefuse heffect hrun =>
    rw [after_ok hrun]
    refine heffect.toStatusChange.classified hc
      (fun id b _ => ⟨cancelBranch_same _ id b,fun hi => Or.inl ?_⟩)
    unfold cancelBranch Branch.cancel at hi
    split at hi
    · split at hi
      · cases hi
      · exact hi
    · exact hi

theorem classified_shedLoad (targetActive : ℤ) (h : InOrder r) (hc : AllClassified r) :
    AllClassified (after (shedLoad targetActive) r) := by
  cases loadShed h targetActive with
  | negative htarget hrun =>
    rw [after_error hrun]
    exact hc
  | shed dropped next hqueued heffect hrun =>
    rw [after_ok hrun]
    refine heffect.toStatusChange.classified hc
      (fun id b _ => ⟨cancelBranches_same _ id b,fun hi => Or.inl ?_⟩)
    unfold cancelBranches Branch.cancel at hi
    split at hi
    · split at hi
      · cases hi
      · exact hi
    · exact hi

/-- The second half of `run_next` allows a task that does not require the current version. -/
theorem finishNext_allowed {flight : Flight} (h : InOrder r) (hf : InFlight r flight)
    (hc : AllClassified r) (hkind : flight.task.kind.currentVersion = false)
    (result : EngineResult) :
    ∃ next, finishNext flight result r = .ok ⟨flight.task.taskId,.allow,some result⟩ next := by
  cases finished h hf result with
  | allowed branch session next hbranch hrunning hsession hallow heffect hrun => exact ⟨next,hrun⟩
  | refused branch session reason next hbranch hsession hrefuse heffect hrun =>
    obtain ⟨task,ht,hsame,-⟩ := hf.task
    obtain ⟨branch',hb',hstatus⟩ := hf.branch
    obtain ⟨branch'',hb'',hp⟩ := h.attached _ task ht
    rw [hbranch,Option.some.injEq] at hb'
    rw [← hf.branchId,hbranch,Option.some.injEq] at hb''
    subst hb'
    subst hb''
    have hbk : branch.kind.currentVersion = false := by rw [← hp.kind,hsame]; exact hkind
    have hreq : branch.requiresCurrentVersion = false := (hc _ _ hbranch).requires.trans hbk
    have hbsid : branch.sessionId = flight.task.sessionId := by rw [← hp.sessionId,hsame]
    obtain ⟨session',hget,-,hstop⟩ := (h.grounded _ _ hbranch).session
    rw [hbsid,hsession,Option.some.injEq] at hget
    subst hget
    refine absurd (evaluate_allow.mpr ⟨?_,fun htask => ?_,fun _ => hstop hreq⟩) hrefuse
    · have hrunning := hstatus.resolve_right ((hc _ _ hbranch).spared hbk)
      rw [hrunning]
      exact ⟨nofun,nofun⟩
    · have hflight : flight.task.requiresCurrentVersion = branch.requiresCurrentVersion := by
        rw [← hp.requiresCurrentVersion,hsame]
      rw [hflight,hreq] at htask
      cases htask

/-- `run_next` allows such a task whenever it starts one. -/
theorem runNext_allowed (hengine : c.engine.NeverRaises) (h : InOrder r) (hc : AllClassified r)
    {now : PyFloat} {flight : Flight} (hstart : startNext c now r = .ok (some flight) next)
    (hkind : flight.task.kind.currentVersion = false) :
    ∃ result last, runNext c now r = .ok (some ⟨flight.task.taskId,.allow,some result⟩) last := by
  cases started c now h with
  | overflow mid heffect hrun | idle mid heffect hrun | unencodable task branch session mid hpop hencode hrun =>
    rw [hrun] at hstart
    cases hstart
  | started task branch session promptTokens mid hpop hencode hrun =>
    rw [hrun] at hstart
    cases hstart
    obtain ⟨result,e,hflight,hdone⟩ := (hpop.inFlight _).answered hengine hrun
    have hnext : AllClassified next := classified_popped hpop.effect.toStatusChange hc
    have hmid : InOrder { next with engine := e } := (hpop.since h).inOrder
    obtain ⟨last,hfin⟩ := finishNext_allowed hmid hflight hnext hkind result
    exact ⟨result,last,hdone _ last hfin⟩

end CueBeeRuntime

namespace LiveRuntime
variable {S : Type} {c : Services S} {s next : LiveRuntime S}

theorem classified_step (h : Flying s)
    (hc : AllClassified s.runtime) (move : Move S) : AllClassified (step c move s).runtime := by
  cases move with
  | handleEvent event => exact classified_handleEvent event h.inOrder hc
  | setGpuLoad load | engine state => exact hc
  | shedLoad targetActive => exact classified_shedLoad targetActive h.inOrder hc
  | submitTask a =>
    have hnext := classified_submitTask (c := c) a h.inOrder hc
    cases hx : submitTask c a s.runtime with
    | ok task r | error e r =>
      simp only [after,hx] at hnext
      simpa only [step,hx] using hnext
  | start now =>
    cases started c now h.inOrder with
    | overflow r heffect hrun | idle r heffect hrun =>
      simp only [step,hrun]
      exact classified_popped heffect.toStatusChange hc
    | unencodable task branch session r hpop hencode hrun
    | started task branch session promptTokens r hpop hencode hrun =>
      simp only [step,hrun]
      exact classified_popped hpop.effect.toStatusChange hc
  | finish i result =>
    cases hg : s.generations[i]? with
    | none => simpa only [step,hg] using hc
    | some g =>
      have hnext := classified_finishNext h.inOrder (h.inFlight g (List.mem_of_getElem? hg)) hc result
      cases hx : finishNext g.flight result s.runtime with
      | ok o r | error e r =>
        simp only [after,hx] at hnext
        simpa only [step,hg,hx] using hnext

theorem classified_run (moves : List (Move S)) (h : Flying s) (hc : AllClassified s.runtime) :
    AllClassified (runAll (act c) moves s).runtime := by
  have hstep : ∀ move, Keeps (fun s => Flying s ∧ AllClassified s.runtime) (act c move) :=
    fun move t ht => ⟨keeps_flying move t ht.1,classified_step ht.1 ht.2 move⟩
  exact (runAll_keeps hstep moves ⟨h,hc⟩).2

/-- The dependency of the branch stays committed and unchanged from `r` to `later`, and the
branch is not invalidated. -/
structure StaysCommitted (b : Branch) (r later : CueBeeRuntime S) : Prop where
  session : ∃ before session, r.sessions.sessions.get? b.sessionId = some before ∧
    later.sessions.sessions.get? b.sessionId = some session ∧
    b.dependency.stop ≤ before.commitFrontier ∧ b.dependency.stop ≤ session.commitFrontier ∧
    slice b.dependency session.allTokens = slice b.dependency before.allTokens
  branch : ∃ b', later.branches.branches.get? b.branchId = some b' ∧ SameBranch b b' ∧
    b'.status ≠ .invalidated

theorem staysCommitted {r later : CueBeeRuntime S} (h : InOrder r) (hc : AllClassified r)
    (hlater : AllClassified later) (hlast : Lasting r later) {id : BranchId} {b : Branch}
    (hb : r.branches.branches.get? id = some b) (hkind : b.kind.currentVersion = false) :
    StaysCommitted b r later where
  session := by
    obtain ⟨before,hget,-,hstop⟩ := (h.grounded id b hb).session
    obtain ⟨session,hget',hadv⟩ := hlast.sessions _ before hget
    have hle := hstop ((hc id b hb).requires.trans hkind)
    exact ⟨before,session,hget,hget',hle,hle.trans hadv.frontier,slice_of_advances hadv hle⟩
  branch := by
    obtain ⟨b',hb',hsame,-⟩ := hlast.branches id b hb
    have hkind' : b'.kind.currentVersion = false := by rw [hsame]; exact hkind
    rw [(h.named id b hb).1]
    exact ⟨b',hb',hsame,(hlater id b' hb').spared hkind'⟩

end LiveRuntime
open LiveRuntime

theorem invalidation_exact {S : Type} (c : Services S) (hengine : c.engine.NeverRaises)
    (blockSize : ℕ) (hblock : 0 < blockSize) (admissionCap : ℕ)
    (hcap : 0 < admissionCap) (e : S) (moves : List (Move S)) :
    let start := LiveRuntime.init blockSize hblock admissionCap hcap e
    let s := runAll (act c) moves start
    (∀ event o next, handleEvent c event s.runtime = .ok o next → o.accepted = true →
      Invalidates event o s.runtime next) ∧
    (∀ id b, s.runtime.branches.branches.get? id = some b → b.kind.currentVersion = false →
      ∀ later, StaysCommitted b s.runtime (runAll (act c) later s).runtime) ∧
    (∀ now flight next, startNext c now s.runtime = .ok (some flight) next →
      flight.task.kind.currentVersion = false → ∃ result last,
        runNext c now s.runtime = .ok (some ⟨flight.task.taskId,.allow,some result⟩) last) ∧
    ∀ g ∈ s.generations, g.flight.task.kind.currentVersion = false → ∀ result, ∃ last,
      finishNext g.flight result s.runtime = .ok ⟨g.taskId,.allow,some result⟩ last := by
  intro start s
  have hstart : Flying start := flying_init blockSize hblock admissionCap hcap e
  have hf : Flying s := flying_run moves hstart
  have hc : AllClassified s.runtime :=
    classified_run moves hstart (fun id b hb => by cases hb)
  refine ⟨fun event o next hrun ho => handleEvent_invalidates hf.inOrder hc hrun ho,
    fun id b hb hkind later => ?_,fun now flight next hrun hkind => ?_,fun g hg hkind result => ?_⟩
  · exact staysCommitted hf.inOrder hc (classified_run later hf hc) (lasting_run later hf) hb hkind
  · exact runNext_allowed hengine hf.inOrder hc hrun hkind
  · exact finishNext_allowed hf.inOrder (hf.inFlight g hg) hc hkind result

/-- A query and a hint in flight while the transcript is revised. -/
theorem invalidation_exact_revision :
    let c := quietServices lenientTokenizer
    let moves : List (Move Unit) := [
      .handleEvent (heard "g" 0 .appendPartial "hello" (by decide) (by decide)),
      .submitTask (asked "t" .proactiveHint (lit "why")),.start (.fin 1),
      .submitTask (asked "u" .userQuery (lit "who")),.start (.fin 1)]
    let s := runAll (act c) moves (LiveRuntime.init 4 (by decide) 8 (by decide) ())
    let event := heard "g" 1 .revisePartial "help" (by decide) (by decide)
    ∃ o next, handleEvent c event s.runtime = .ok o next ∧ Invalidates event o s.runtime next ∧
      o.invalidatedTasks = [lit "t"] := by
  intro c moves s event
  obtain ⟨o,next,hrun,ho⟩ := exists_of_outcome (b := (true,[lit "t"]))
    (show (outcome (handleEvent c event) s.runtime).map
      (fun o => (o.accepted,o.invalidatedTasks)) = _ by decide +kernel)
  obtain ⟨haccepted,hids⟩ := Prod.mk.inj ho
  obtain ⟨hexact,-⟩ :=
    invalidation_exact c quietEngine_neverRaises 4 (by decide) 8 (by decide) () moves
  exact ⟨o,next,hrun,hexact event o next hrun haccepted,hids⟩

end CueBee.Runtime
