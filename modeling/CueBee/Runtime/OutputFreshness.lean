import CueBee.Runtime.MoveEffects

/-! # No stale output escapes

`Recorded` compares the history of a system with its sessions: since the submission of a
task, and since the start of its generation, the session has only advanced. The freshness
gate compares versions, and equal versions mean the same transcript.
-/
namespace CueBee.Runtime
open Cache Transcript Raising ConversationSession SessionManager PyStr CueBeeRuntime

/-- The tokens of a transcript in a range. -/
def slice (range : TokenRange) (tokens : List Token) : List Token :=
  (tokens.take range.stop).drop range.start

theorem slice_all (session : ConversationSession) (h : 0 ≤ session.totalTokens) :
    slice ⟨0,session.totalTokens,h⟩ session.allTokens = session.allTokens := by
  show (session.allTokens.take session.totalTokens).drop 0 = _
  rw [List.drop_zero,← length_allTokens,List.take_length]

theorem slice_committed (session : ConversationSession) (h : 0 ≤ session.commitFrontier) :
    slice ⟨0,session.commitFrontier,h⟩ session.allTokens = session.committedTokens := by
  show (session.allTokens.take session.commitFrontier).drop 0 = _
  rw [List.drop_zero]
  exact List.take_left

namespace LiveRuntime
variable {S : Type} {c : Services S} {s next : LiveRuntime S}

/-- `before` is the session of the task at its submission. -/
structure SubmittedTo (before : ConversationSession) (task : AnalysisTask PyFloat) : Prop where
  baseVersion : task.baseVersion = before.version
  start : task.dependency.start = 0
  stop : task.dependency.stop =
    if task.requiresCurrentVersion = true then before.totalTokens else before.commitFrontier

theorem SubmittedTo.same {before : ConversationSession} {task task' : AnalysisTask PyFloat}
    (h : SubmittedTo before task) (hs : SameTask task task') : SubmittedTo before task' := by
  rw [hs]
  exact ⟨h.baseVersion,h.start,h.stop⟩

/-- What the history says about a task of the runtime `r`. -/
def TaskRecorded (r : CueBeeRuntime S) (submitted : Dict TaskId ConversationSession)
    (id : TaskId) (task : AnalysisTask PyFloat) : Prop :=
  ∃ before session, submitted.get? id = some before ∧ SubmittedTo before task ∧
    r.sessions.sessions.get? task.sessionId = some session ∧ Advances before session

/-- What the history says about a generation. -/
structure Seen (r : CueBeeRuntime S) (submitted : Dict TaskId ConversationSession)
    (g : Generation) : Prop where
  session : ∃ before session, submitted.get? g.taskId = some before ∧
    before.version ≤ g.seen.version ∧
    r.sessions.sessions.get? g.flight.task.sessionId = some session ∧ Advances g.seen session
  prompt : g.flight.request.prompt =
    g.seen.transcriptText g.flight.task.requiresCurrentVersion ++
      taskPrompt g.flight.task.kind g.flight.task.prompt

structure Recorded (s : LiveRuntime S) : Prop where
  tasks : ∀ id task, s.runtime.scheduler.tasks.get? id = some task →
    TaskRecorded s.runtime s.submitted id task
  seen : ∀ g ∈ s.generations, Seen s.runtime s.submitted g

theorem recorded_init (blockSize : ℕ) (hblock : 0 < blockSize) (admissionCap : ℕ)
    (hcap : 0 < admissionCap) (e : S) : Recorded (init blockSize hblock admissionCap hcap e) where
  tasks id task h := by cases h
  seen g hg := by cases hg

variable {r r' : CueBeeRuntime S} {submitted : Dict TaskId ConversationSession}

theorem TaskRecorded.progress {id : TaskId} {task task' : AnalysisTask PyFloat}
    (h : TaskRecorded r submitted id task) (hm : Progress r.sessions r'.sessions)
    (hs : SameTask task task') : TaskRecorded r' submitted id task' := by
  obtain ⟨before,session,hb,hsub,hget,hadv⟩ := h
  obtain ⟨after,hafter,hadv'⟩ := hm _ session hget
  refine ⟨before,after,hb,hsub.same hs,?_,hadv.trans hadv'⟩
  rw [hs]
  exact hafter

theorem Seen.progress {g : Generation} (h : Seen r submitted g)
    (hm : Progress r.sessions r'.sessions) : Seen r' submitted g := by
  obtain ⟨before,session,hb,hv,hget,hadv⟩ := h.session
  obtain ⟨after,hafter,hadv'⟩ := hm _ session hget
  exact ⟨⟨before,after,hb,hv,hafter,hadv.trans hadv'⟩,h.prompt⟩

/-- The old tasks stay recorded when the runtime moves on. -/
theorem Recorded.old (h : Recorded s) (hlast : Lasting s.runtime r) {id : TaskId}
    {task : AnalysisTask PyFloat} (ht : r.scheduler.tasks.get? id = some task)
    (hold : ∃ before, s.runtime.scheduler.tasks.get? id = some before) :
    TaskRecorded r s.submitted id task := by
  obtain ⟨before,hbefore⟩ := hold
  obtain ⟨task',ht',hsame,-⟩ := hlast.tasks id before hbefore
  rw [ht,Option.some.injEq] at ht'
  subst ht'
  exact (h.tasks id before hbefore).progress hlast.sessions hsame

theorem submittedTo_new (a : Submission) (session : ConversationSession) (deadline : PyFloat) :
    SubmittedTo session (newTask a session (submittedBranch a session) deadline) := by
  refine ⟨rfl,rfl,?_⟩
  show (if a.kind.currentVersion = true then _ else _) =
    if a.kind.currentVersion = true then _ else _
  rfl

theorem Stepped.recorded (h : Recorded s) (hf : Flying s) (hs : Stepped s next) : Recorded next := by
  cases hs with
  | quiet r hsince hfly hold =>
    exact ⟨fun id task ht => h.old hsince.lasting ht (hold id task ht),
      fun g hg => (h.seen g hg).progress hsince.lasting.sessions⟩
  | submitted a session deadline r hsince hfly hget hnew htasks =>
    have hlast := hsince.lasting
    have hunknown := hf.inOrder.unscheduled hnew
    refine ⟨fun id task ht => ?_,fun g hg => ?_⟩
    · have ht' : r.scheduler.tasks.get? id = some task := ht
      rw [htasks,VersionDeadlineScheduler.get?_store,taskId_newTask] at ht'
      by_cases hid : id = resolvedTaskId a
      · subst hid
        rw [if_pos rfl,Option.some.injEq] at ht'
        subst ht'
        obtain ⟨after,hafter,hadv⟩ := hlast.sessions _ session hget
        exact ⟨session,after,Dict.get?_set_self ..,submittedTo_new a session deadline,hafter,hadv⟩
      · rw [if_neg hid] at ht'
        obtain ⟨before,session',hb,hrest⟩ := h.old hlast ht ⟨task,ht'⟩
        exact ⟨before,session',by rw [Dict.get?_set_ne _ _ hid,hb],hrest⟩
    · obtain ⟨⟨before,session',hb,hrest⟩,hprompt⟩ := (h.seen g hg).progress hlast.sessions
      have hne : g.taskId ≠ resolvedTaskId a := by
        intro he
        obtain ⟨task,ht,-⟩ := (hf.inFlight g hg).task
        rw [show g.flight.task.taskId = resolvedTaskId a from he,hunknown] at ht
        cases ht
      exact ⟨⟨before,session',by rw [Dict.get?_set_ne _ _ hne,hb],hrest⟩,hprompt⟩
  | started task branch session promptTokens r hsince hfly hpop =>
    have hlast := hsince.lasting
    refine ⟨fun id t ht => h.old hlast ht (hpop.effect.toStatusChange.noNewTask id t ht),
      fun g hg => ?_⟩
    rcases List.mem_append.mp hg with hg | hg
    · exact (h.seen g hg).progress hlast.sessions
    · rw [List.mem_singleton.mp hg]
      obtain ⟨source,hsource,-,htask⟩ := hpop.source
      obtain ⟨before,session',hb,-,hget,hadv⟩ := h.tasks _ source hsource
      have hsession := hpop.session
      rw [show source.sessionId = task.sessionId by rw [htask],hsession,Option.some.injEq] at hget
      subst hget
      obtain ⟨after,hafter,hadv'⟩ := hlast.sessions _ session hsession
      refine ⟨⟨before,after,hb,hadv.version,hafter,hadv'⟩,?_⟩
      -- the branch includes the tentative text exactly if the task needs the current version
      obtain ⟨b,hb',hp⟩ := hf.inOrder.attached _ source hsource
      rw [hpop.found,Option.some.injEq] at hb'
      subst hb'
      have htent := (hf.inOrder.grounded _ branch hpop.found).tentative
      rw [← hp.requiresCurrentVersion,show source.requiresCurrentVersion =
        task.requiresCurrentVersion by rw [htask]] at htent
      show promptOf task branch session = _
      rw [promptOf,htent]
  | finished i g result outcome r hsince hg hfly hold hrun hid hend =>
    exact ⟨fun id task ht => h.old hsince.lasting ht (hold id task ht),
      fun g' hg' => (h.seen g' (List.mem_of_mem_eraseIdx hg')).progress hsince.lasting.sessions⟩

theorem recorded_run (moves : List (Move S)) (hf : Flying s) (h : Recorded s) :
    Recorded (runAll (act c) moves s) := by
  have hstep : ∀ move, Keeps (fun s => Flying s ∧ Recorded s) (act c move) := by
    intro move t ht
    have hs := stepped (c := c) ht.1 move
    exact ⟨hs.flying ht.1,hs.recorded ht.2 ht.1⟩
  exact (runAll_keeps hstep moves ⟨hf,h⟩).2

/-- What the gate is there to guarantee about the output of a generation. -/
structure FreshOutput (s : LiveRuntime S) (g : Generation) : Prop where
  current : g.flight.task.requiresCurrentVersion = true → ∃ before session,
    s.submitted.get? g.taskId = some before ∧
    s.runtime.sessions.sessions.get? g.flight.task.sessionId = some session ∧
    session.version = g.flight.task.baseVersion ∧ SameTranscript before session ∧
    SameTranscript g.seen session
  committed : g.flight.task.requiresCurrentVersion = false → ∃ before session,
    s.submitted.get? g.taskId = some before ∧
    s.runtime.sessions.sessions.get? g.flight.task.sessionId = some session ∧
    g.flight.task.dependency.stop ≤ session.commitFrontier ∧
    slice g.flight.task.dependency session.allTokens =
      slice g.flight.task.dependency before.allTokens
  prompt : g.flight.request.prompt =
    g.seen.transcriptText g.flight.task.requiresCurrentVersion ++
      taskPrompt g.flight.task.kind g.flight.task.prompt

theorem slice_of_advances {before session : ConversationSession} (h : Advances before session)
    {range : TokenRange} (hrange : range.stop ≤ before.commitFrontier) :
    slice range session.allTokens = slice range before.allTokens := by
  obtain ⟨more,hmore⟩ := h.committed
  have hlen : range.stop ≤ before.committedTokens.length := hrange
  unfold slice allTokens
  rw [← hmore,List.append_assoc,List.take_append_of_le_length hlen,
    List.take_append_of_le_length hlen]

theorem freshOutput {g : Generation} (hf : Flying s) (hr : Recorded s) (hg : g ∈ s.generations)
    {branch : Branch} {session : ConversationSession}
    (hsession : s.runtime.sessions.sessions.get? g.flight.task.sessionId = some session)
    (hallow : evaluate g.flight.task branch session = .allow) : FreshOutput s g := by
  obtain ⟨-,hcurrent,-⟩ := evaluate_allow.mp hallow
  obtain ⟨task,ht,hsame,-⟩ := (hf.inFlight g hg).task
  obtain ⟨before,session',hb,hsub,hget,hadv⟩ := hr.tasks _ task ht
  have hsub' : SubmittedTo before g.flight.task := by
    rw [hsame] at hsub
    exact ⟨hsub.baseVersion,hsub.start,hsub.stop⟩
  rw [show task.sessionId = g.flight.task.sessionId by rw [hsame],hsession,Option.some.injEq] at hget
  subst hget
  obtain ⟨⟨before',session',hb',hv,hget',hseen⟩,hprompt⟩ := hr.seen g hg
  have hb'' : s.submitted.get? g.taskId = some before := hb
  rw [hb'',Option.some.injEq] at hb'
  subst hb'
  rw [hsession,Option.some.injEq] at hget'
  subst hget'
  refine ⟨fun hreq => ⟨before,session,hb,hsession,(hcurrent hreq).symm,?_,?_⟩,
    fun hreq => ⟨before,session,hb,hsession,?_,?_⟩,hprompt⟩
  · exact hadv.same (hsub'.baseVersion.symm.trans (hcurrent hreq))
  · -- the version seen lies between the version at the submission and the current one
    have hversion := hsub'.baseVersion.symm.trans (hcurrent hreq)
    exact hseen.same (le_antisymm hseen.version (hversion ▸ hv))
  · have hstop := hsub'.stop
    rw [hreq] at hstop
    exact hstop.trans_le hadv.frontier
  · have hstop := hsub'.stop
    rw [hreq] at hstop
    exact slice_of_advances hadv hstop.le

/-- A branch that is cancelled or invalidated at some time of a run stays so. -/
theorem branch_ended (hlast : Lasting r r') {id : BranchId} {b b' : Branch}
    (hb : r.branches.branches.get? id = some b) (hb' : r'.branches.branches.get? id = some b')
    (hend : b'.status ≠ .cancelled ∧ b'.status ≠ .invalidated) :
    b.status ≠ .cancelled ∧ b.status ≠ .invalidated := by
  have hstays : b.status.active = false → b'.status = b.status := by
    intro ha
    obtain ⟨b'',hb'',hs⟩ := hlast.branch_final hb ha
    rw [hb',Option.some.injEq] at hb''
    exact hb'' ▸ hs
  refine ⟨fun hc => hend.1 ?_,fun hi => hend.2 ?_⟩
  · exact (hstays (by rw [hc]; rfl)).trans hc
  · exact (hstays (by rw [hi]; rfl)).trans hi

end LiveRuntime
open LiveRuntime

/-- Whatever the tokenizer and the engine do. -/
theorem no_stale_output_escapes {S : Type} (c : Services S) (blockSize : ℕ) (hblock : 0 < blockSize)
    (admissionCap : ℕ) (hcap : 0 < admissionCap) (e : S) (moves : List (Move S)) :
    let start := LiveRuntime.init blockSize hblock admissionCap hcap e
    let s := runAll (act c) moves start
    ∀ g ∈ s.generations, ∀ result o, outcome (finishNext g.flight result) s.runtime = .ok o →
      o.decision = .allow → FreshOutput s g ∧
      ∀ earlier later, moves = earlier ++ later →
        ∀ b, (runAll (act c) earlier start).runtime.branches.branches.get? g.flight.branchId =
          some b → b.status ≠ .cancelled ∧ b.status ≠ .invalidated := by
  intro start s g hg result o hrun hallow
  have hstart : Flying start := flying_init blockSize hblock admissionCap hcap e
  have hf : Flying s := flying_run moves hstart
  have hr : Recorded s := recorded_run moves hstart
    (recorded_init blockSize hblock admissionCap hcap e)
  cases finished hf.inOrder (hf.inFlight g hg) result with
  | refused branch session reason next hbranch hsession hrefuse heffect hfin =>
    rw [outcome_ok hfin,Except.ok.injEq] at hrun
    rw [← hrun] at hallow
    exact absurd hallow hrefuse
  | allowed branch session next hbranch hrunning hsession hgate heffect hfin =>
    refine ⟨freshOutput hf hr hg hsession hgate,?_⟩
    rintro earlier later rfl b hb
    have hmid := flying_run (c := c) earlier hstart
    have hlast := lasting_run (c := c) later hmid
    rw [← runAll_append] at hlast
    exact branch_ended hlast hb hbranch (evaluate_allow.mp hgate).1

/-- A duplicate event and a shedding of load during the generation of a hint. -/
theorem no_stale_output_escapes_hint :
    let heardOnce := heard "g" 0 .appendPartial "hello" (by decide) (by decide)
    let moves : List (Move Unit) := [.handleEvent heardOnce,
      .submitTask (asked "t" .proactiveHint (lit "why")),.start (.fin 1),.handleEvent heardOnce,.shedLoad 0]
    let s := runAll (act (quietServices lenientTokenizer)) moves
      (LiveRuntime.init 4 (by decide) 8 (by decide) ())
    ∃ g ∈ s.generations, g.flight.task.requiresCurrentVersion = true ∧ FreshOutput s g := by
  intro heardOnce moves s
  let g := s.generations.head (by decide +kernel)
  have hg : g ∈ s.generations := List.head_mem _
  have hrun : outcome (finishNext g.flight ⟨lit "t",[],0,0⟩) s.runtime =
      .ok ⟨lit "t",.allow,some ⟨lit "t",[],0,0⟩⟩ := by decide +kernel
  refine ⟨g,hg,by decide +kernel,?_⟩
  exact (no_stale_output_escapes (quietServices lenientTokenizer) 4 (by decide) 8 (by decide) ()
    moves g hg _ _ hrun rfl).1

end CueBee.Runtime
