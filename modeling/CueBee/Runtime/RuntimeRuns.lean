import CueBee.Runtime.MethodFrames
import CueBee.Runtime.TaskExecution

/-! # Runs of one runtime

`Call` lists what a caller of a runtime can do; the caller survives every exception. The
invariant holds after every run in which no submission is abandoned where that matters.
-/
namespace CueBee.Runtime
open Cache Transcript Raising PyStr

/-- A call on a runtime, or a new reading of the GPU load. -/
inductive Call
  | handleEvent (event : STTEvent)
  | submitTask (a : Submission)
  | runNext (now : PyFloat)
  | shedLoad (targetActive : ℤ)
  | setGpuLoad (load : PyFloat)

namespace CueBeeRuntime
variable {S : Type} (c : Services S)

/-- One call, its return value dropped. -/
def exec : Call → EStateM RuntimeError (CueBeeRuntime S) Unit
  | .handleEvent event => do
    let _ ← handleEvent c event
  | .submitTask a => do
    let _ ← submitTask c a
  | .runNext now => do
    let _ ← runNext c now
  | .shedLoad targetActive => do
    let _ ← CueBeeRuntime.shedLoad targetActive
  | .setGpuLoad load => modify (fun r => { r with gpuLoad := load })

/-- The call does not abandon a submission of a kind that requires the current version. -/
def SafeCall : Call → CueBeeRuntime S → Prop
  | .submitTask a, r => SafeSubmission c a r
  | _, _ => True

/-- The deadline of a submission of a kind that requires the current version is no integer too
large for a float, or the submission is refused before that is looked at. -/
def DeadlineFits : Call → CueBeeRuntime S → Prop
  | .submitTask a, r => a.kind.currentVersion = true →
      a.deadlineMs.natAbs < PyFloat.intLimit ∨
      r.sessions.sessions.get? a.sessionId = none ∨
      r.branches.branches.get? (branchIdOf (resolvedTaskId a)) ≠ none
  | _, _ => True

variable {c} {r next : CueBeeRuntime S}

theorem DeadlineFits.safeCall (htok : c.tokenizer.Total) {call : Call} (h : DeadlineFits call r) :
    SafeCall c call r := by
  cases call with
  | submitTask a => exact fun hkind => (h hkind).imp_left (fun hd => ⟨htok _,deadlineAt_ne_none.mpr hd⟩)
  | handleEvent _ | runNext _ | shedLoad _ | setGpuLoad _ => trivial

/-- What the steps keep, every call keeps that is neither an event nor a new GPU load. -/
theorem Steps.exec {I : CueBeeRuntime S → Prop} (h : Steps c I) {call : Call}
    (hevent : ∀ event, call = .handleEvent event → Keeps I (handleEvent c event))
    (hload : ∀ load, call = .setGpuLoad load → ∀ r, I r → I { r with gpuLoad := load }) :
    Keeps I (CueBeeRuntime.exec c call) := by
  cases call with
  | handleEvent event => exact keeps_bind (hevent event rfl) (fun _ => keeps_pure _)
  | submitTask a => exact keeps_bind (h.submitTask a) (fun _ => keeps_pure _)
  | runNext now => exact keeps_bind (h.runNext now) (fun _ => keeps_pure _)
  | shedLoad targetActive => exact keeps_bind (h.shedLoad targetActive) (fun _ => keeps_pure _)
  | setGpuLoad load => exact fun r hr => hload load rfl r hr

theorem inv_init (blockSize : ℕ) (hblock : 0 < blockSize) (admissionCap : ℕ)
    (hcap : 0 < admissionCap) (e : S) : Inv (init blockSize hblock admissionCap hcap e) :=
  coherent_init 1 blockSize hblock admissionCap hcap

theorem inv_exec (hengine : c.engine.NeverRaises) (call : Call) (r : CueBeeRuntime S) (h : Inv r)
    (hsafe : SafeCall c call r) : Inv (after (exec c call) r) := by
  cases call with
  | handleEvent event =>
    rw [exec,after_discard]
    exact keeps_handleEvent hengine event r h
  | submitTask a =>
    rw [exec,after_discard]
    exact inv_submitTask h hsafe
  | runNext now =>
    rw [exec,after_discard]
    exact keeps_runNext hengine now r h
  | shedLoad targetActive =>
    rw [exec,after_discard]
    exact keeps_shedLoad targetActive r h
  | setGpuLoad load => exact h

theorem inv_run (htok : c.tokenizer.Total) (hengine : c.engine.NeverRaises) {blockSize : ℕ}
    (hblock : 0 < blockSize) {admissionCap : ℕ} (hcap : 0 < admissionCap) (e : S)
    {calls : List Call}
    (h : RunMeets (exec c) DeadlineFits calls (init blockSize hblock admissionCap hcap e)) :
    Inv (runAll (exec c) calls (init blockSize hblock admissionCap hcap e)) :=
  h.keeps (fun call r hr hcall => inv_exec hengine call r hr (hcall.safeCall htok))
    (inv_init blockSize hblock admissionCap hcap e)

end CueBeeRuntime

/-- `utf8Tokenizer` where that returns, and no tokens elsewhere. -/
def lenientTokenizer : Tokenizer where
  encode text := some ((utf8Tokenizer.encode text).getD [])

theorem lenientTokenizer_total : lenientTokenizer.Total := fun _ h => by cases h

/-- An engine that takes every call and keeps no records. -/
def quietEngine : Engine Unit where
  prefill _ _ _ _ := pure ()
  generate request := pure ⟨request.taskId,[],request.promptTokenIds.length,0⟩
  abort _ := pure true
  updateSession := some (fun _ => pure ())

theorem quietEngine_neverRaises : quietEngine.NeverRaises where
  prefill _ _ _ _ s := ⟨(),s,rfl⟩
  generate request s := ⟨⟨request.taskId,[],request.promptTokenIds.length,0⟩,s,rfl⟩
  abort _ s := ⟨true,s,rfl⟩
  updateSession f hf update s := by
    cases hf
    exact ⟨(),s,rfl⟩

/-- The services of the runs on fixed inputs. -/
def quietServices (tokenizer : Tokenizer) : Services Unit where
  tokenizer := tokenizer
  engine := quietEngine
  tentativePolicy := .standard

/-- A submission to session "s" at time 0, due after a second. -/
def asked (taskId : String) (kind : TaskKind) (prompt : PyStr) : Submission where
  sessionId := lit "s"
  kind := kind
  prompt := prompt
  deadlineMs := 1000
  priority := 0
  estimatedTokens := 32
  taskId := some (lit taskId)
  now := some (.fin 0)
  uuid := []
  clock := .fin 0

/-- The same, with a deadline of `10 ^ 400` milliseconds. -/
def askedEndless (taskId : String) (kind : TaskKind) (prompt : PyStr) : Submission :=
  { asked taskId kind prompt with deadlineMs := 10 ^ 400 }

end CueBee.Runtime
