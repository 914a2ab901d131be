import CueBee.Transcript.ByteTokens
import CueBee.Runtime.PromptTokens
import CueBee.Runtime.BranchTokens
import CueBee.Runtime.HalfAppliedEvents

/-! # Transcripts are read back

`UTF8Tokenizer.decode` reads whatever the runtime holds of a transcript, in its sessions, in the
cache and in the branches of the tasks.
-/
namespace CueBee.Runtime
open Cache Transcript Raising ConversationSession VersionedKVManager PyStr

namespace CueBeeRuntime
variable {S : Type} {c : Services S} {r next : CueBeeRuntime S} {s : SessionId}
  {session : ConversationSession}

/-- The tokens of a session, and those of the cache if none is missing, are read as its text. -/
structure ReadsBack (r : CueBeeRuntime S) (s : SessionId) (session : ConversationSession) : Prop where
  whole : utf8Tokenizer.decode session.allTokens = some (session.transcriptText true)
  committed : utf8Tokenizer.decode session.committedTokens = some (session.transcriptText false)
  settled : session.tentativeTokens = [] → FullyResident r s
  resident : FullyResident r s → ∃ tokens, outcome (sessionTokens s) r.kv = .ok tokens ∧
    utf8Tokenizer.decode tokens = some (session.transcriptText true)

/-- What is fully resident is the whole transcript. -/
theorem FullyResident.tokens (h : InOrder r) (hresident : FullyResident r s)
    (hget : r.sessions.sessions.get? s = some session) :
    (r.kv.view.sessions s).map Prod.fst = session.allTokens := by
  obtain ⟨session',hget',hread⟩ := hresident
  rw [hget,Option.some.injEq] at hget'
  have hheld : outcome (sessionTokens s) r.kv = .ok ((r.kv.view.sessions s).map Prod.fst) :=
    outcome_sessionTokens h.sound s
  rw [hread,Except.ok.injEq,← hget'] at hheld
  exact hheld.symm

theorem Inv.fullyResident (h : Inv r) (hget : r.sessions.sessions.get? s = some session)
    (htail : session.tentativeTokens = []) : FullyResident r s := by
  obtain ⟨tail,hpart,hview⟩ := h.agrees s
  rw [SessionManager.current_of_some hget] at hpart hview
  rw [htail,List.prefix_nil] at hpart
  have hheld : outcome (sessionTokens s) r.kv = .ok ((r.kv.view.sessions s).map Prod.fst) :=
    outcome_sessionTokens h.sound s
  refine ⟨session,hget,hheld.trans ?_⟩
  rw [show r.kv.view.sessions s = _ from hview,hpart,allTokens,htail]
  simp [spineTail,Function.comp_def]

theorem readsBack (h : Inv r) (hencoded : r.sessions.Encoded utf8Tokenizer)
    (hget : r.sessions.sessions.get? s = some session) : ReadsBack r s session := by
  have htext := (hencoded s session hget).encode_transcriptText utf8Tokenizer_piecewise.concatenates
  have hwhole : utf8Tokenizer.decode session.allTokens = some (session.transcriptText true) :=
    utf8Tokenizer.decode_eq_some.mpr (htext true)
  refine ⟨hwhole,utf8Tokenizer.decode_eq_some.mpr (htext false),h.fullyResident hget,
    fun hresident => ⟨(r.kv.view.sessions s).map Prod.fst,outcome_sessionTokens h.sound s,?_⟩⟩
  rw [hresident.tokens h.inOrder hget]
  exact hwhole

/-- The branch of a submitted task is read as the transcript that the task is about and its
prompt, unless a part of a tentative tail was not prefilled. -/
theorem branch_reads_back (htok : c.tokenizer = utf8Tokenizer) (h : Inv r)
    (hencoded : r.sessions.Encoded utf8Tokenizer) {a : Submission} {task : AnalysisTask PyFloat}
    (hrun : submitTask c a r = .ok task next)
    (hresident : a.kind.currentVersion = true → FullyResident r a.sessionId) :
    ∃ session own, r.sessions.sessions.get? a.sessionId = some session ∧
      outcome (branchTokens task.branchId) next.kv = .ok own ∧
      utf8Tokenizer.decode own =
        some (session.transcriptText a.kind.currentVersion ++ taskPrompt a.kind a.prompt) := by
  obtain ⟨session,promptTokens,deadline,hget,hprompt,-,-,-,hown⟩ :=
    branchTokens_submitted h.inOrder hrun
  refine ⟨session,_,hget,hown,utf8Tokenizer.decode_eq_some.mpr ?_⟩
  have htext := (hencoded a.sessionId session hget).encode_transcriptText
    utf8Tokenizer_piecewise.concatenates a.kind.currentVersion
  have hshared : sharedTokens a r =
      if a.kind.currentVersion = true then session.allTokens else session.committedTokens := by
    by_cases ha : a.kind.currentVersion = true
    · rw [if_pos ha,sharedTokens_current ha]
      exact (hresident ha).tokens h.inOrder hget
    · rw [if_neg ha,sharedTokens_committed h hget (Bool.not_eq_true _ ▸ ha)]
      have hdep : (submittedBranch a session).dependency =
          ⟨0,session.commitFrontier,Nat.zero_le _⟩ := by
        simp [submittedBranch,BranchGraph.newBranch,ha]
      rw [hdep,slice_committed]
  rw [hshared]
  exact utf8Tokenizer_piecewise.concatenates.concat htext (htok ▸ hprompt)

end CueBeeRuntime
open CueBeeRuntime

/-- Whatever the runtime holds of a transcript is read back as its text, after any calls that
abandon no submission. -/
theorem transcripts_read_back {S : Type} (engine : Engine S) (hengine : engine.NeverRaises)
    (policy : TentativePrefillPolicy) (blockSize : ℕ) (hblock : 0 < blockSize) (admissionCap : ℕ)
    (hcap : 0 < admissionCap) (e : S) (calls : List Call)
    (hclean : RunMeets (exec ⟨utf8Tokenizer,engine,policy⟩) CleanCall calls
      (init blockSize hblock admissionCap hcap e)) :
    let c : Services S := ⟨utf8Tokenizer,engine,policy⟩
    let r := runAll (exec c) calls (init blockSize hblock admissionCap hcap e)
    (∀ s session, r.sessions.sessions.get? s = some session → ReadsBack r s session) ∧
    ∀ a task next, submitTask c a r = .ok task next →
      (a.kind.currentVersion = true → FullyResident r a.sessionId) →
      ∃ session own, r.sessions.sessions.get? a.sessionId = some session ∧
        outcome (branchTokens task.branchId) next.kv = .ok own ∧
        utf8Tokenizer.decode own =
          some (session.transcriptText a.kind.currentVersion ++ taskPrompt a.kind a.prompt) := by
  intro c r
  have hstep : ∀ call (s : CueBeeRuntime S), s.Inv → CleanCall call s →
      (after (exec c call) s).Inv :=
    fun call s hs hcall => inv_exec hengine call s hs (hcall.safeCall rfl)
  have h : r.Inv := hclean.keeps hstep (inv_init blockSize hblock admissionCap hcap e)
  have hencoded : r.sessions.Encoded utf8Tokenizer := runAll_keeps
    (sessions_exec (c := c) (SessionManager.encoded_apply utf8Tokenizer_piecewise.concatenates)) calls
    (encoded_init utf8Tokenizer blockSize hblock admissionCap hcap e)
  exact ⟨fun s session hget => readsBack h hencoded hget,
    fun a task next hrun hresident => branch_reads_back rfl h hencoded hrun hresident⟩

/-- A hint about a final text of two bytes for one character. -/
theorem transcripts_read_back_hint :
    let c := quietServices utf8Tokenizer
    let calls : List Call := [.handleEvent (heard "g" 0 .commitFinal "né" (by decide) (by decide))]
    let r := runAll (exec c) calls (init 2 (by decide) 8 (by decide) ())
    ∃ session task next own, r.sessions.sessions.get? (lit "s") = some session ∧
      utf8Tokenizer.decode session.allTokens = some (session.transcriptText true) ∧
      submitTask c (asked "t" .proactiveHint (lit "why")) r = .ok task next ∧
      outcome (branchTokens task.branchId) next.kv = .ok own ∧
      utf8Tokenizer.decode own = some (session.transcriptText true ++
        taskPrompt .proactiveHint (lit "why")) := by
  intro c calls r
  obtain ⟨task,next,hrun,-⟩ := exists_of_outcome (b := lit "t")
    (show (outcome (submitTask c (asked "t" .proactiveHint (lit "why"))) r).map
      AnalysisTask.taskId = _ by decide +kernel)
  obtain ⟨hsessions,hbranches⟩ := transcripts_read_back quietEngine quietEngine_neverRaises .standard
    2 (by decide) 8 (by decide) () calls ⟨trivial,trivial⟩
  have hresident : FullyResident r (lit "s") :=
    ⟨r.sessions.current (lit "s"),by decide +kernel,by decide +kernel⟩
  obtain ⟨session,own,hget,hown,hdecode⟩ := hbranches _ task next hrun (fun _ => hresident)
  exact ⟨session,task,next,own,hget,(hsessions _ _ hget).whole,hrun,hown,hdecode⟩

end CueBee.Runtime
