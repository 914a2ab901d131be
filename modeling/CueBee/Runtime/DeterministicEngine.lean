import Mathlib.Data.Finset.Insert
import CueBee.Support.Sha256
import CueBee.Runtime.PromptTokens
import CueBee.Runtime.Draining

/-! # The default runtime

`CueBeeRuntime()` runs on the byte tokenizer and on `DeterministicEngine`. No text with lone
surrogates gets into a transcript or into the prompt of a task, so that `run_next` always finds a
prompt that it can encode, and answers the best of the fresh tasks.
-/
namespace CueBee.Runtime
open Cache Transcript Raising ConversationSession SessionManager PyStr
open VersionDeadlineScheduler (score Convertible)

/-- The calls that the engine remembers. -/
structure DeterministicEngine where
  prefillCalls : List (SessionId × List Token × ℕ × Bool)
  sessionUpdateCalls : List SessionRevisionUpdate
  generateCalls : List EngineRequest
  aborted : Finset TaskId

namespace DeterministicEngine

def init : DeterministicEngine := ⟨[],[],[],∅⟩

def prefill (sessionId : SessionId) (tokenIds : List Token) (version : ℕ) (tentative : Bool) :
    EStateM EngineError DeterministicEngine Unit :=
  modify (fun e => { e with prefillCalls := e.prefillCalls ++ [(sessionId,tokenIds,version,tentative)] })

/-- `f"cuebee:{base_version}:{digest}"`. -/
def answer (baseVersion : ℕ) (bytes : List ℕ) : PyStr :=
  lit "cuebee:" ++ decimal baseVersion ++ lit ":" ++ ((Sha256.hexdigest bytes).take 10).map codePoint

/-- The request is remembered even when its prompt has lone surrogates. -/
def generate (request : EngineRequest) : EStateM EngineError DeterministicEngine EngineResult := do
  modify (fun e => { e with generateCalls := e.generateCalls ++ [request] })
  match utf8 request.prompt with
  | none => throw ⟨lit "surrogates not allowed"⟩
  | some bytes =>
    let text := answer request.baseVersion bytes
    return ⟨request.taskId,text,request.promptTokenIds.length,(split 0x3a text).length⟩

def updateSession (update : SessionRevisionUpdate) : EStateM EngineError DeterministicEngine Unit := do
  modify (fun e => { e with sessionUpdateCalls := e.sessionUpdateCalls ++ [update] })
  prefill update.sessionId update.replacementTokenIds update.version update.tentative

def abort (requestId : TaskId) : EStateM EngineError DeterministicEngine Bool := do
  modify (fun e => { e with aborted := insert requestId e.aborted })
  return true

def engine : Engine DeterministicEngine := ⟨prefill,generate,abort,some updateSession⟩

theorem colon_notMem_decimal (n : ℕ) : (0x3a : CodePoint) ∉ decimal n := by
  intro h
  obtain ⟨c,hc,hcolon⟩ := List.mem_map.mp h
  have hdigit : 48 ≤ c.toNat ∧ c.toNat ≤ 57 := Char.isDigit_iff_toNat.mp
    (Nat.isDigit_of_mem_toDigits (b := 10) (by omega) (by omega) hc)
  have hval : c.toNat = 58 := (val_codePoint c).symm.trans (congrArg Fin.val hcolon)
  omega

theorem colon_notMem_hexdigest (bytes : List ℕ) (n : ℕ) :
    (0x3a : CodePoint) ∉ ((Sha256.hexdigest bytes).take n).map codePoint := by
  intro h
  obtain ⟨c,hc,hcolon⟩ := List.mem_map.mp h
  obtain ⟨d,hd,rfl⟩ := Sha256.mem_hexdigest (List.mem_of_mem_take hc)
  have hhex : ∀ d < 16, codePoint (Nat.digitChar d) ≠ 0x3a := by decide
  exact hhex d hd hcolon

/-- The two colons of the format are the only ones. -/
theorem length_split_answer (baseVersion : ℕ) (bytes : List ℕ) :
    (split 0x3a (answer baseVersion bytes)).length = 3 := by
  have hversion := List.count_eq_zero.mpr (colon_notMem_decimal baseVersion)
  have hdigest := List.count_eq_zero.mpr (colon_notMem_hexdigest bytes 10)
  rw [length_split,answer,List.count_append,List.count_append,List.count_append,hversion,hdigest]
  rfl

theorem generate_ok {request : EngineRequest} {bytes : List ℕ} (h : utf8 request.prompt = some bytes)
    (e : DeterministicEngine) : generate request e =
      .ok ⟨request.taskId,answer request.baseVersion bytes,request.promptTokenIds.length,3⟩
        { e with generateCalls := e.generateCalls ++ [request] } := by
  rw [generate,bind_ok (modify_apply _ e)]
  simp only [h,length_split_answer]
  rfl

/-- `prefill` is called for the updates and for nothing else. -/
def UpdatesPrefilled (e : DeterministicEngine) : Prop :=
  e.prefillCalls = e.sessionUpdateCalls.map (fun update =>
    (update.sessionId,update.replacementTokenIds,update.version,update.tentative))

theorem updatesPrefilled_updateSession (update : SessionRevisionUpdate) :
    Keeps UpdatesPrefilled (updateSession update) := by
  intro e h
  show e.prefillCalls ++ [_] = (e.sessionUpdateCalls ++ [update]).map _
  rw [h,List.map_append]
  rfl

theorem updatesPrefilled_generate (request : EngineRequest) : Keeps UpdatesPrefilled (generate request) := by
  refine keeps_bind (keeps_modify (fun _ h => h)) (fun _ => ?_)
  cases utf8 request.prompt with
  | none => exact keeps_throw _
  | some bytes => exact keeps_pure _

theorem updatesPrefilled_abort (taskId : TaskId) : Keeps UpdatesPrefilled (abort taskId) :=
  keeps_bind (keeps_modify (fun _ h => h)) (fun _ => keeps_pure _)

end DeterministicEngine
open DeterministicEngine (UpdatesPrefilled)

/-- What `CueBeeRuntime()` is built with. -/
def defaultServices (policy : TentativePrefillPolicy) : Services DeterministicEngine :=
  ⟨utf8Tokenizer,DeterministicEngine.engine,policy⟩

namespace CueBeeRuntime
variable {policy : TentativePrefillPolicy} {r next : CueBeeRuntime DeterministicEngine}

theorem updatesPrefilled_steps : Steps (defaultServices policy)
    (fun r : CueBeeRuntime DeterministicEngine => UpdatesPrefilled r.engine) :=
  engine_steps DeterministicEngine.updatesPrefilled_abort DeterministicEngine.updatesPrefilled_generate

theorem keeps_updatesPrefilled (call : Call) :
    Keeps (fun r : CueBeeRuntime DeterministicEngine => UpdatesPrefilled r.engine)
      (exec (defaultServices policy) call) := by
  cases call with
  | handleEvent event =>
    refine keeps_map _ (engine_handleEvent DeterministicEngine.updatesPrefilled_abort
      DeterministicEngine.updatesPrefilled_generate (fun hnone => by cases hnone) (fun f hf => ?_) event)
    cases hf
    exact DeterministicEngine.updatesPrefilled_updateSession
  | submitTask a => exact keeps_map _ (updatesPrefilled_steps.submitTask a)
  | runNext now => exact keeps_map _ (updatesPrefilled_steps.runNext now)
  | shedLoad targetActive =>
    have hsteps : Steps (defaultServices policy) _ := updatesPrefilled_steps
    exact keeps_map _ (hsteps.shedLoad targetActive)
  | setGpuLoad load => exact keeps_modify (fun _ h => h)

section Prompts
variable {S : Type} {c : Services S} {start : CueBeeRuntime S}

/-- The prompt of a task was encoded when the task was submitted. -/
theorem taskPrompt_encodes (h : InOrder start) (hempty : start.scheduler.tasks = Dict.empty)
    {calls : List Call} {j : TaskId} {task : AnalysisTask PyFloat}
    (ht : (runAll (exec c) calls start).scheduler.tasks.get? j = some task) :
    ∃ promptTokens, c.tokenizer.encode (taskPrompt task.kind task.prompt) = some promptTokens := by
  have hj : start.scheduler.tasks.get? j = none := by
    rw [hempty]
    rfl
  obtain ⟨before,a,between,session,rfl,hsub⟩ := exists_submittedAt (c := c) h hj ht
  have hbefore : InOrder (runAll (exec c) before start) := (since_run before h).inOrder
  obtain ⟨submittedTask,mid,hsubmit,rfl⟩ := hsub.accepted
  obtain ⟨session',promptTokens,deadline,-,hprompt,rfl,-,htask,-⟩ := submitTask_returned hbefore hsubmit
  have hlater : Since mid (runAll (exec c) between mid) := by
    have hmid := (since_exec (c := c) (.submitTask a) _ (.refl hbefore)).inOrder
    rw [exec,after_discard,after_ok hsubmit] at hmid
    exact since_run between hmid
  rw [runAll_append,runAll_cons,exec,after_discard,after_ok hsubmit] at ht
  obtain ⟨task',ht',hsame,-⟩ := hlater.lasting.tasks _ _ htask
  rw [ht,Option.some.injEq] at ht'
  subst ht'
  refine ⟨promptTokens,?_⟩
  rw [hsame]
  exact hprompt

end Prompts

/-- The bytes of a text that the byte tokenizer encodes. -/
theorem exists_utf8 {text : PyStr} {tokens : List Token} (h : utf8Tokenizer.encode text = some tokens) :
    ∃ bytes, utf8 text = some bytes ∧ tokens.length = bytes.length := by
  obtain ⟨bytes,hbytes,rfl⟩ := Option.map_eq_some_iff.mp h
  exact ⟨bytes,hbytes,by simp⟩

/-- What `run_next` sends for a fresh task, and what it answers. -/
structure Answers (r : CueBeeRuntime DeterministicEngine) (task : AnalysisTask PyFloat)
    (request : EngineRequest) (result : EngineResult) : Prop where
  /-- The prompt is the transcript of the session and the prompt of the task. -/
  prompt : ∃ session, r.sessions.sessions.get? task.sessionId = some session ∧
    (task.requiresCurrentVersion = true → task.baseVersion = session.version) ∧
    request.prompt =
      session.transcriptText task.requiresCurrentVersion ++ taskPrompt task.kind task.prompt
  tokens : utf8Tokenizer.encode request.prompt = some request.promptTokenIds
  carries : request = newRequest task request.prompt request.promptTokenIds
  answered : ∃ bytes, utf8 request.prompt = some bytes ∧
    result = ⟨task.taskId,DeterministicEngine.answer task.baseVersion bytes,bytes.length,3⟩

/-- The best of the fresh tasks is answered when its prompt can be encoded. -/
theorem runNext_answers (policy : TentativePrefillPolicy) (h : InOrder r)
    (hscorable : r.scheduler.Scorable r.currentVersions) {now : PyFloat}
    {task : AnalysisTask PyFloat}
    (hbest : choose r.scheduler.weights now r.freshTasks = some task)
    (hsessions : r.sessions.Encoded utf8Tokenizer) {taskTokens : List Token}
    (htask : utf8Tokenizer.encode (taskPrompt task.kind task.prompt) = some taskTokens) :
    ∃ request result next, Answers r task request result ∧
      runNext (defaultServices policy) now r = .ok (some ⟨task.taskId,.allow,some result⟩) next ∧
      next.engine = { r.engine with generateCalls := r.engine.generateCalls ++ [request] } := by
  obtain ⟨branch,session,mid,hpop,hengine,hcurrent,hserve⟩ :=
    runNext_best (c := defaultServices policy) h hscorable hbest
  have hsession : r.sessions.sessions.get? task.sessionId = some session := hpop.session
  have hencode := utf8Tokenizer_piecewise.concatenates.concat
    ((hsessions _ session hsession).encode_transcriptText utf8Tokenizer_piecewise.concatenates
      task.requiresCurrentVersion) htask
  generalize (if task.requiresCurrentVersion = true then session.allTokens
    else session.committedTokens) ++ taskTokens = promptTokens at hencode
  obtain ⟨bytes,hbytes,hlength⟩ := exists_utf8 hencode
  have hgenerate := @DeterministicEngine.generate_ok (newRequest task _ promptTokens) _ hbytes
    mid.engine
  obtain ⟨next,hrun,-,hlast⟩ := hserve _ promptTokens _ _ rfl hencode hgenerate
  refine ⟨newRequest task _ promptTokens,_,next,
    ⟨⟨session,hsession,hcurrent,rfl⟩,hencode,rfl,bytes,hbytes,?_⟩,hrun,?_⟩
  · rw [← hlength]
    rfl
  · rw [hlast,hengine]

end CueBeeRuntime
open CueBeeRuntime

/-- `run_next` answers the first fresh task of the highest score, or there is none, or a score
overflows. -/
theorem default_runtime_answers (policy : TentativePrefillPolicy) (blockSize : ℕ)
    (hblock : 0 < blockSize) (admissionCap : ℕ) (hcap : 0 < admissionCap) (calls : List Call)
    (now : PyFloat) :
    let c := defaultServices policy
    let r := runAll (exec c) calls
      (CueBeeRuntime.init blockSize hblock admissionCap hcap DeterministicEngine.init)
    let w := r.scheduler.weights
    UpdatesPrefilled r.engine ∧
    (r.scheduler.Scorable r.currentVersions → r.freshTasks = [] →
      ∃ next, runNext c now r = .ok none next ∧ next.engine = r.engine) ∧
    (r.scheduler.Scorable r.currentVersions → r.freshTasks ≠ [] →
      ∃ task ∈ r.freshTasks, ((∀ t ∈ r.freshTasks, score w t now ≠ some .nan) →
        FirstGreatest (points w now) r.freshTasks task) ∧
      ∃ request result next, Answers r task request result ∧
        runNext c now r = .ok (some ⟨task.taskId,.allow,some result⟩) next ∧
        next.engine = { r.engine with generateCalls := r.engine.generateCalls ++ [request] }) ∧
    (¬r.scheduler.Scorable r.currentVersions →
      ∃ next, runNext c now r = .error (.scheduler .overflow) next ∧ next.engine = r.engine) := by
  intro c r w
  have hstart := inOrder_init blockSize hblock admissionCap hcap DeterministicEngine.init
  have h : InOrder r := (since_run calls hstart).inOrder
  have hsessions : r.sessions.Encoded utf8Tokenizer := runAll_keeps
    (sessions_exec (c := c) (encoded_apply utf8Tokenizer_piecewise.concatenates)) calls
    (encoded_init utf8Tokenizer blockSize hblock admissionCap hcap DeterministicEngine.init)
  refine ⟨runAll_keeps keeps_updatesPrefilled calls rfl,fun hscorable hnone => ?_,
    fun hscorable hsome => ?_,fun hstuck => ?_⟩
  · have hbest : choose w now r.freshTasks = none := by rw [hnone]; rfl
    obtain ⟨q,hrun,-⟩ := runNext_nothing (c := c) h hscorable hbest
    exact ⟨_,hrun,rfl⟩
  · have hconv := convertible_fresh h.tasksNamed hscorable
    have hfound : choose w now r.freshTasks ≠ none := fun hnone => hsome (choose_none hconv hnone)
    obtain ⟨task,hbest⟩ := Option.ne_none_iff_exists'.mp hfound
    have hmem := choose_mem hbest
    have hget := h.tasksNamed.get?_of_mem (List.mem_filter.mp hmem).1
    obtain ⟨taskTokens,htask⟩ := taskPrompt_encodes hstart rfl hget
    exact ⟨task,hmem,fun hscore => choose_firstGreatest hscore hbest,
      runNext_answers policy h hscorable hbest hsessions htask⟩
  · obtain ⟨e,q,hpop⟩ :=
      (VersionDeadlineScheduler.popNext_overflow_iff h.tasksNamed now).mpr hstuck
    exact ⟨_,bind_error (startNext_overflow c h hpop).2,rfl⟩

/-- A question about a final text. -/
theorem default_runtime_answers_question :
    let c := defaultServices .standard
    let calls : List Call := [
      .handleEvent (heard "g" 0 .commitFinal "hello" (by decide) (by decide)),
      .submitTask (asked "q" .userQuery (lit "why"))]
    let r := runAll (exec c) calls
      (CueBeeRuntime.init 4 (by decide) 8 (by decide) DeterministicEngine.init)
    ∃ task request result next, task.taskId = lit "q" ∧ Answers r task request result ∧
      runNext c (.fin 1) r = .ok (some ⟨task.taskId,.allow,some result⟩) next := by
  intro c calls r
  have hids : r.freshTasks.map AnalysisTask.taskId = [lit "q"] := by decide +kernel
  have hconv : ∀ t ∈ r.freshTasks, Convertible t := by decide +kernel
  obtain ⟨-,-,hanswers,-⟩ :=
    default_runtime_answers .standard 4 (by decide) 8 (by decide) calls (.fin 1)
  obtain ⟨task,hmem,-,request,result,next,hanswer,hrun,-⟩ :=
    hanswers (scorable_of_fresh hconv) (fun hnone => by
      rw [show r.freshTasks = [] from hnone] at hids
      cases hids)
  have hid : task.taskId ∈ r.freshTasks.map AnalysisTask.taskId := List.mem_map_of_mem hmem
  rw [hids,List.mem_singleton] at hid
  exact ⟨task,request,result,next,hid,hanswer,hrun⟩

end CueBee.Runtime
