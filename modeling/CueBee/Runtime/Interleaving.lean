import CueBee.Runtime.RuntimeRuns
import CueBee.Runtime.StatusProgress

/-! # Calls during generation

While an engine generates, other calls may run. A `LiveRuntime` is a runtime together with the
tasks whose output is being generated; a `Move` starts one, finishes one, or is any other
call. `submitted`, `seen` and `outcomes` record history and decide nothing.
-/
namespace CueBee.Runtime
open Cache Transcript Raising ConversationSession SessionManager PyStr CueBeeRuntime

/-- A started task and the session that its prompt was built from. -/
structure Generation where
  flight : Flight
  seen : ConversationSession

def Generation.taskId (g : Generation) : TaskId := g.flight.task.taskId

/-- `submitted` has the session of each task as it was at the submission. -/
structure LiveRuntime (S : Type) where
  runtime : CueBeeRuntime S
  generations : List Generation
  submitted : Dict TaskId ConversationSession
  outcomes : List TaskOutcome

inductive Move (S : Type)
  | handleEvent (event : STTEvent)
  | submitTask (a : Submission)
  | shedLoad (targetActive : ℤ)
  | setGpuLoad (load : PyFloat)
  | start (now : PyFloat)
  | engine (state : S)
  | finish (i : ℕ) (result : EngineResult)

namespace LiveRuntime
variable {S : Type} (c : Services S)

def init (blockSize : ℕ) (hblock : 0 < blockSize) (admissionCap : ℕ) (hcap : 0 < admissionCap)
    (engine : S) : LiveRuntime S :=
  ⟨CueBeeRuntime.init blockSize hblock admissionCap hcap engine,[],Dict.empty,[]⟩

def step : Move S → LiveRuntime S → LiveRuntime S
  | .handleEvent event, s => { s with runtime := after (handleEvent c event) s.runtime }
  | .submitTask a, s =>
    match submitTask c a s.runtime with
    | .ok task r => { s with
        runtime := r
        submitted := s.submitted.set task.taskId (s.runtime.sessions.current a.sessionId) }
    | .error _ r => { s with runtime := r }
  | .shedLoad targetActive, s =>
    { s with runtime := after (CueBeeRuntime.shedLoad targetActive) s.runtime }
  | .setGpuLoad load, s => { s with runtime := { s.runtime with gpuLoad := load } }
  | .start now, s =>
    match startNext c now s.runtime with
    | .ok (some flight) r => { s with
        runtime := r
        generations := s.generations ++
          [⟨flight,s.runtime.sessions.current flight.task.sessionId⟩] }
    | .ok none r => { s with runtime := r }
    | .error _ r => { s with runtime := r }
  | .engine state, s => { s with runtime := { s.runtime with engine := state } }
  | .finish i result, s =>
    match s.generations[i]? with
    | none => s
    | some g =>
      match finishNext g.flight result s.runtime with
      | .ok outcome r => { s with
          runtime := r
          generations := s.generations.eraseIdx i
          outcomes := s.outcomes ++ [outcome] }
      | .error _ r => { s with runtime := r, generations := s.generations.eraseIdx i }

/-- One move as a call that always returns. -/
def act (move : Move S) : EStateM RuntimeError (LiveRuntime S) Unit := modify (step c move)

variable {c} {s next : LiveRuntime S}

@[simp] theorem after_act (move : Move S) (s : LiveRuntime S) : after (act c move) s = step c move s := rfl

/-- A call of `run_next` is a start, what the engine does, and a finish. -/
theorem runNext_moves (now : PyFloat) (s : LiveRuntime S) :
    ∃ moves, (runAll (act c) moves s).runtime = after (runNext c now) s.runtime := by
  cases hstart : startNext c now s.runtime with
  | error e r =>
    refine ⟨[.start now],?_⟩
    have hrun : runNext c now s.runtime = .error e r := bind_error hstart
    rw [after_error hrun]
    simp only [runAll_cons,runAll_nil,after_act,step,hstart]
  | ok started r =>
    cases started with
    | none =>
      refine ⟨[.start now],?_⟩
      have hrun : runNext c now s.runtime = .ok none r := bind_ok hstart
      rw [after_ok hrun]
      simp only [runAll_cons,runAll_nil,after_act,step,hstart]
    | some flight =>
      cases hgen : c.engine.generate flight.request r.engine with
      | error e state =>
        refine ⟨[.start now,.engine state],?_⟩
        have h2 : onEngine (c.engine.generate flight.request) r =
            .error (.engine e) { r with engine := state } := focus_error hgen
        have hrun : runNext c now s.runtime = .error (.engine e) { r with engine := state } := by
          simp only [runNext,bind_ok hstart]
          exact bind_error h2
        rw [after_error hrun]
        simp only [runAll_cons,runAll_nil,after_act,step,hstart]
      | ok result state =>
        refine ⟨[.start now,.engine state,.finish s.generations.length result],?_⟩
        have h2 : onEngine (c.engine.generate flight.request) r =
            .ok result { r with engine := state } := focus_ok hgen
        cases hfin : finishNext flight result { r with engine := state } with
        | ok outcome last =>
          have hrun : runNext c now s.runtime = .ok (some outcome) last := by
            simp only [runNext,bind_ok hstart,bind_ok h2,bind_ok hfin]
            rfl
          rw [after_ok hrun]
          simp only [runAll_cons,runAll_nil,after_act,step,hstart,List.getElem?_concat_length,hfin]
        | error e last =>
          have hrun : runNext c now s.runtime = .error e last := by
            simp only [runNext,bind_ok hstart,bind_ok h2]
            exact bind_error hfin
          rw [after_error hrun]
          simp only [runAll_cons,runAll_nil,after_act,step,hstart,List.getElem?_concat_length,hfin]

/-- Every run of calls is a run of moves. -/
theorem calls_are_moves (calls : List Call) (s : LiveRuntime S) :
    ∃ moves, (runAll (act c) moves s).runtime = runAll (exec c) calls s.runtime := by
  induction calls generalizing s with
  | nil => exact ⟨[],rfl⟩
  | cons call rest ih =>
    have hone : ∃ moves, (runAll (act c) moves s).runtime = after (exec c call) s.runtime := by
      cases call with
      | handleEvent event => exact ⟨[.handleEvent event],by rw [exec,after_discard]; rfl⟩
      | shedLoad targetActive => exact ⟨[.shedLoad targetActive],by rw [exec,after_discard]; rfl⟩
      | setGpuLoad load => exact ⟨[.setGpuLoad load],rfl⟩
      | runNext now =>
        rw [exec,after_discard]
        exact runNext_moves now s
      | submitTask a =>
        refine ⟨[.submitTask a],?_⟩
        rw [exec,after_discard]
        simp only [runAll_cons,runAll_nil,after_act,step]
        cases hx : submitTask c a s.runtime with
        | ok task r => rw [after_ok hx]
        | error e r => rw [after_error hx]
    obtain ⟨moves,hmoves⟩ := hone
    obtain ⟨more,hmore⟩ := ih (runAll (act c) moves s)
    refine ⟨moves ++ more,?_⟩
    rw [runAll_append,hmore,hmoves,runAll_cons]

end LiveRuntime
end CueBee.Runtime
