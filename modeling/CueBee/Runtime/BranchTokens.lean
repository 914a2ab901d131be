import CueBee.Runtime.CacheAgreement
import CueBee.Runtime.OutputFreshness

/-! # What the branch of a task holds

`submit_task` records the whole transcript as the dependency of a task that requires the
current version, and forks what is resident of it. The two are the same exactly if no
token of the transcript waits for its prefill.
-/
namespace CueBee.Runtime
open Cache Transcript Raising ConversationSession VersionedKVManager PyStr

theorem lcpLength_append_self (xs ys : List Token) : lcpLength (xs ++ ys) xs = xs.length := by
  induction xs with
  | nil => cases ys <;> rfl
  | cons x xs ih =>
    rw [List.cons_append,lcpLength,if_pos rfl,ih]
    rfl

namespace CueBeeRuntime
variable {S : Type} {c : Services S} {r next : CueBeeRuntime S} {a : Submission}

/-- The branch of the task holds the transcript on the dependency range and the prompt, and
the task counts the tokens that the branch has in common with its session. -/
structure HoldsDependency (c : Services S) (task : AnalysisTask PyFloat) (r : CueBeeRuntime S) :
    Prop where
  tokens : ∃ session promptTokens, r.sessions.sessions.get? task.sessionId = some session ∧
    task.dependency = ⟨0,session.totalTokens,Nat.zero_le _⟩ ∧
    c.tokenizer.encode (taskPrompt task.kind task.prompt) = some promptTokens ∧
    outcome (branchTokens task.branchId) r.kv =
      .ok (slice task.dependency session.allTokens ++ promptTokens)
  shared : ∃ own held, outcome (branchTokens task.branchId) r.kv = .ok own ∧
    outcome (sessionTokens task.sessionId) r.kv = .ok held ∧
    task.sharedPrefixTokens = lcpLength own held

/-- The cache has the tokens of the transcript of `s`, all of them and no others. -/
def FullyResident (r : CueBeeRuntime S) (s : SessionId) : Prop :=
  ∃ session, r.sessions.sessions.get? s = some session ∧
    outcome (sessionTokens s) r.kv = .ok session.allTokens

/-- The fork of a task that requires the current version takes all that is resident. -/
theorem sharedTokens_current (ha : a.kind.currentVersion = true) (r : CueBeeRuntime S) :
    sharedTokens a r = (r.kv.view.sessions a.sessionId).map Prod.fst := by
  simp [sharedTokens,NaiveKV.forked,ha]

/-- The fork of any other task takes the committed spine, which is its dependency. -/
theorem sharedTokens_committed (h : Inv r) {session : ConversationSession}
    (hget : r.sessions.sessions.get? a.sessionId = some session)
    (ha : a.kind.currentVersion = false) :
    sharedTokens a r = slice (submittedBranch a session).dependency session.allTokens := by
  obtain ⟨tail,htail,hview⟩ := h.agrees a.sessionId
  have hcurrent := SessionManager.current_of_some hget
  have hkv : r.kv.view.sessions a.sessionId = spineTail session.committedTokens tail := by
    rw [← hcurrent]
    exact hview
  have hdep : (submittedBranch a session).dependency = ⟨0,session.commitFrontier,Nat.zero_le _⟩ := by
    simp [submittedBranch,BranchGraph.newBranch,ha]
  rw [sharedTokens,ha,hkv,forked_committed,hdep,slice_committed]

/-- What a caller can read of the branch after a successful submission. -/
theorem branchTokens_submitted (h : InOrder r) {task : AnalysisTask PyFloat}
    (hrun : submitTask c a r = .ok task next) :
    ∃ session promptTokens deadline, r.sessions.sessions.get? a.sessionId = some session ∧
      c.tokenizer.encode (taskPrompt a.kind a.prompt) = some promptTokens ∧
      task = newTask a session (submittedBranch a session) deadline ∧ next.sessions = r.sessions ∧
      outcome (sessionTokens a.sessionId) next.kv =
        .ok ((r.kv.view.sessions a.sessionId).map Prod.fst) ∧
      outcome (branchTokens task.branchId) next.kv = .ok (sharedTokens a r ++ promptTokens) := by
  obtain ⟨session,promptTokens,deadline,hget,hencode,hadded,-,rfl⟩ := submitted_of_ok h hrun
  refine ⟨session,promptTokens,deadline,hget,hencode,rfl,hadded.sessions,?_,?_⟩
  · rw [outcome_sessionTokens hadded.sound,hadded.view]
    rfl
  · have href := hadded.references_self
    rw [outcome_branchTokens hadded.sound,show (newTask a session
      (submittedBranch a session) deadline).branchId = (submittedBranch a session).branchId from rfl,href]

/-- For a task that requires the current version, nothing else is needed than that the
transcript is resident. -/
theorem holdsDependency_iff (h : InOrder r) (ha : a.kind.currentVersion = true)
    {task : AnalysisTask PyFloat} (hrun : submitTask c a r = .ok task next) :
    HoldsDependency c task next ↔ FullyResident r a.sessionId := by
  obtain ⟨session,promptTokens,deadline,hget,hencode,rfl,hsame,hheld,hown⟩ :=
    branchTokens_submitted h hrun
  have hdep : (submittedBranch a session).dependency = ⟨0,session.totalTokens,Nat.zero_le _⟩ := by
    simp [submittedBranch,BranchGraph.newBranch,ha]
  have hslice : slice (submittedBranch a session).dependency session.allTokens =
      session.allTokens := by
    rw [hdep,slice_all]
  have hread : outcome (sessionTokens a.sessionId) r.kv =
      .ok ((r.kv.view.sessions a.sessionId).map Prod.fst) := outcome_sessionTokens h.sound _
  rw [sharedTokens_current ha] at hown
  generalize (r.kv.view.sessions a.sessionId).map Prod.fst = resident at hheld hown hread
  constructor
  · rintro ⟨⟨session',promptTokens',hget',-,hencode',hown'⟩,-⟩
    rw [hsame] at hget'
    cases hget.symm.trans hget'
    cases hencode.symm.trans hencode'
    have hboth := Except.ok.inj (hown.symm.trans hown')
    rw [show (newTask a session (submittedBranch a session) deadline).dependency =
      (submittedBranch a session).dependency from rfl,hslice,List.append_left_inj] at hboth
    exact ⟨session,hget,hboth ▸ hread⟩
  · rintro ⟨session',hget',hread'⟩
    cases hget.symm.trans hget'
    cases hread.symm.trans hread'
    refine ⟨⟨session,promptTokens,by rw [hsame]; exact hget,hdep,hencode,?_⟩,
      ⟨session.allTokens ++ promptTokens,session.allTokens,hown,hheld,?_⟩⟩
    · refine hown.trans ?_
      show _ = Except.ok (slice (submittedBranch a session).dependency session.allTokens ++ _)
      rw [hslice]
    · rw [lcpLength_append_self,session.length_allTokens]
      show (submittedBranch a session).dependency.length = _
      rw [hdep]
      rfl

end CueBeeRuntime
open CueBeeRuntime

theorem current_branch_holds_dependency {S : Type} (c : Services S) (blockSize : ℕ)
    (hblock : 0 < blockSize) (admissionCap : ℕ) (hcap : 0 < admissionCap) (e : S)
    (calls : List Call) :
    let r := runAll (exec c) calls (init blockSize hblock admissionCap hcap e)
    ∀ a task next, a.kind = .proactiveHint ∨ a.kind = .searchDecision →
      submitTask c a r = .ok task next →
      (HoldsDependency c task next ↔ FullyResident r a.sessionId) := by
  intro r a task next hkind hrun
  have h : Since _ r := since_run calls (inOrder_init blockSize hblock admissionCap hcap e)
  refine holdsDependency_iff h.inOrder ?_ hrun
  rcases hkind with hk | hk <;> rw [hk] <;> rfl

/-- A final is always resident. -/
theorem current_branch_holds_dependency_final :
    let c := quietServices lenientTokenizer
    let r := runAll (exec c) [.handleEvent (heard "g" 0 .commitFinal "hi" (by decide) (by decide))]
      (init 4 (by decide) 8 (by decide) ())
    ∃ task next, submitTask c (asked "t" .proactiveHint (lit "why")) r = .ok task next ∧
      HoldsDependency c task next := by
  intro c r
  obtain ⟨task,next,hrun,-⟩ := exists_of_outcome (b := lit "t")
    (show (outcome (submitTask c (asked "t" .proactiveHint (lit "why"))) r).map
      AnalysisTask.taskId = _ by decide +kernel)
  refine ⟨task,next,hrun,?_⟩
  refine (current_branch_holds_dependency c 4 (by decide) 8 (by decide) () _ _ task next (Or.inl rfl)
    hrun).mpr ?_
  exact ⟨r.sessions.current (lit "s"),by decide +kernel⟩

/-- The policy skips a partial of two tokens, and a hint depends on them all the same. -/
theorem short_partial_not_held :
    let c := quietServices lenientTokenizer
    let r := runAll (exec c) [.handleEvent (heard "g" 0 .appendPartial "hi" (by decide) (by decide))]
      (init 4 (by decide) 8 (by decide) ())
    ∃ task next, submitTask c (asked "t" .proactiveHint (lit "why")) r = .ok task next ∧
      ¬HoldsDependency c task next := by
  intro c r
  obtain ⟨task,next,hrun,-⟩ := exists_of_outcome (b := lit "t")
    (show (outcome (submitTask c (asked "t" .proactiveHint (lit "why"))) r).map
      AnalysisTask.taskId = _ by decide +kernel)
  refine ⟨task,next,hrun,?_⟩
  have horder : Since _ r := since_run _ (inOrder_init 4 (by decide) 8 (by decide) ())
  rw [holdsDependency_iff horder.inOrder rfl hrun]
  rintro ⟨session,hget,hread⟩
  -- the transcript has two tokens, and none is resident
  have hsession : r.sessions.sessions.get? (lit "s") = some (r.sessions.current (lit "s")) := by
    decide +kernel
  have hnone : outcome (sessionTokens (lit "s")) r.kv = .ok [] := by decide +kernel
  have htwo : (r.sessions.current (lit "s")).allTokens = [105,106] := by decide +kernel
  have hcurrent : session = r.sessions.current (lit "s") :=
    Option.some.inj (hget.symm.trans hsession)
  rw [hcurrent,htwo] at hread
  cases hread.symm.trans hnone

end CueBee.Runtime
