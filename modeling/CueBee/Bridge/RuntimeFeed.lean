import CueBee.Bridge.StreamFeed
import CueBee.Runtime.CacheRebuild

/-! # A runtime that feeds the in-process engine

The engine of the runtime passes session updates on to the bridge, whose streams may refuse
them; then `handle_event` raises.
-/
namespace CueBee.Bridge
open Cache Transcript CueBee.Runtime Asyncio Raising PyStr

variable {T P I : Type}

/-- The fork's `StreamingRevision`; without a base version it is built with its default. -/
structure StreamingRevision where
  version : ℕ
  baseVersion : Option ℕ
  replaceFrom : ℕ
  commitFrontier : ℕ
  branchId : PyStr
deriving DecidableEq

structure StreamingFork where
  sourceRequestId : SessionId
  sourceVersion : ℕ
  forkAt : ℕ
deriving DecidableEq

structure StreamingInput (P : Type) where
  promptTokenIds : List Token
  samplingParams : P
  revision : StreamingRevision
  fork : Option StreamingFork
deriving DecidableEq

/-- `_build_vllm_input`; it raises where the fork is not installed. -/
def buildVllmInput (installed : Bool) : InputFactory P (StreamingInput P) := fun update samplingParams =>
  if installed = false then none
  else
    match update with
    | .fork update => some ⟨update.promptTokenIds,samplingParams,
        ⟨update.version,none,0,update.commitFrontier,update.branchId⟩,
        some ⟨update.sourceSessionId,update.version,update.forkAt⟩⟩
    | .revision update => some ⟨update.replacementTokenIds,samplingParams,
        ⟨update.version,update.baseVersion,update.replaceFrom,update.commitFrontier,update.branchId⟩,
        none⟩

/-- The engine with the bridge as what is told of revisions. -/
def bridgedEngine (engine : Engine T) (wrap : BridgeError → EngineError) :
    Engine (T × VLLMRevisionBridge P I) where
  prefill sessionId tokenIds version tentative :=
    focus Prod.fst (fun t p => (t,p.2)) id (engine.prefill sessionId tokenIds version tentative)
  generate request := focus Prod.fst (fun t p => (t,p.2)) id (engine.generate request)
  abort taskId := focus Prod.fst (fun t p => (t,p.2)) id (engine.abort taskId)
  updateSession := some (fun update =>
    focus Prod.snd (fun b p => (p.1,b)) wrap (VLLMRevisionBridge.updateSession update))

/-- An engine together with the list of the updates that it took. -/
def acceptingEngine {S : Type} (engine : Engine S) : Engine (S × List SessionRevisionUpdate) where
  prefill sessionId tokenIds version tentative :=
    Engine.behind (engine.prefill sessionId tokenIds version tentative)
  generate request := Engine.behind (engine.generate request)
  abort taskId := Engine.behind (engine.abort taskId)
  updateSession := engine.updateSession.map (fun f update => do
    Engine.behind (f update)
    modify (fun p => (p.1,p.2 ++ [update])))

/-- The services with the bridge in front of their engine. -/
def bridgedServices (c : Services T) (wrap : BridgeError → EngineError) :
    Services ((T × VLLMRevisionBridge P I) × List SessionRevisionUpdate) where
  tokenizer := c.tokenizer
  engine := acceptingEngine (bridgedEngine c.engine wrap)
  tentativePolicy := c.tentativePolicy

theorem acceptingEngine_records {S : Type} {engine : Engine S}
    (h : ∃ f, engine.updateSession = some f) : (acceptingEngine engine).Records where
  abort taskId := behind_updates (engine.abort taskId)
  generate request := behind_updates (engine.generate request)
  updateSession := by
    obtain ⟨f,hf⟩ := h
    refine ⟨_,by rw [acceptingEngine,hf]; rfl,fun u p => ensures_bind.mpr (ensures_focus.mpr ?_)⟩
    cases hx : f u p.1 with
    | ok a e => exact Ensures.of_ok hx (Ensures.of_ok (modify_apply _ _) rfl)
    | error e t => exact Ensures.of_error hx rfl

/-- A runtime in front of a bridge, with the inputs that the consumers were given and the
stream of each. -/
structure BridgedRuntime (T P I : Type) where
  runtime : CueBeeRuntime ((T × VLLMRevisionBridge P I) × List SessionRevisionUpdate)
  yielded : List (ℕ × I)

inductive BridgedMove (P I : Type)
  | call (call : Call)
  | client (call : BridgeCall P I)

namespace BridgedRuntime
open CueBeeRuntime

def init (blockSize : ℕ) (hblock : 0 < blockSize) (admissionCap : ℕ) (hcap : 0 < admissionCap)
    (engine : T) : BridgedRuntime T P I :=
  ⟨CueBeeRuntime.init blockSize hblock admissionCap hcap ((engine,VLLMRevisionBridge.init),[]),[]⟩

def bridge (r : BridgedRuntime T P I) : VLLMRevisionBridge P I := r.runtime.engine.1.2

/-- The updates that the bridge took. -/
def taken (r : BridgedRuntime T P I) : List SessionRevisionUpdate := r.runtime.engine.2

def step (c : Services T) (wrap : BridgeError → EngineError) :
    BridgedMove P I → BridgedRuntime T P I → BridgedRuntime T P I
  | .call call, r => { r with
      runtime := after (CueBeeRuntime.exec (bridgedServices c wrap) call) r.runtime }
  | .client call, r => {
      runtime := { r.runtime with
        engine := ((r.runtime.engine.1.1,after (VLLMRevisionBridge.exec call) r.bridge),r.taken) }
      yielded := r.yielded ++ yields call r.bridge }

/-- One move as a call that always returns. -/
def act (c : Services T) (wrap : BridgeError → EngineError) (move : BridgedMove P I) :
    EStateM RuntimeError (BridgedRuntime T P I) Unit := modify (step c wrap move)

/-- The clients of the bridge leave the updates of `s` to the runtime. -/
def FedByRuntime (s : SessionId) : BridgedMove P I → BridgedRuntime T P I → Prop
  | .call _, _ => True
  | .client call, r => LeavesTo s r.taken r.bridge call

/-- The cache is in step with the updates that were taken, and so are the streams. -/
def InStep (s : SessionId) (r : BridgedRuntime T P I) : Prop :=
  Synced r.runtime ∧ Feeds s r.taken r.yielded r.bridge

variable {c : Services T} {wrap : BridgeError → EngineError} {s : SessionId}
  {r : BridgedRuntime T P I}

theorem bridged_records (c : Services T) (wrap : BridgeError → EngineError) :
    (bridgedServices (P := P) (I := I) c wrap).engine.Records := acceptingEngine_records ⟨_,rfl⟩

section Calls
variable {J : List SessionRevisionUpdate → VLLMRevisionBridge P I → Prop}

/-- The methods that are not the bridge's leave it alone. -/
theorem keeps_behind {α : Type} (x : EStateM EngineError T α) :
    Keeps (fun p : (T × VLLMRevisionBridge P I) × List SessionRevisionUpdate => J p.2 p.1.2)
      (Engine.behind (focus Prod.fst (fun t p => (t,p.2)) id x)) := by
  refine keeps_focus (fun p hp => ensures_focus.mpr ?_)
  cases hx : x p.1.1 with
  | ok a t => exact Ensures.of_ok hx hp
  | error e t => exact Ensures.of_error hx hp

/-- Of the calls on the runtime the bridge sees the session updates, taken or refused. -/
theorem keeps_exec (hupdate : ∀ us b u, J us b → Ensures (VLLMRevisionBridge.updateSession u) b
      (fun _ b' => J (us ++ [u]) b') (fun _ b' => J us b')) (call : Call) :
    Keeps (fun r : CueBeeRuntime ((T × VLLMRevisionBridge P I) × List SessionRevisionUpdate) =>
      J r.engine.2 r.engine.1.2) (CueBeeRuntime.exec (bridgedServices c wrap) call) := by
  have hsteps := engine_steps (c := bridgedServices c wrap)
    (J := fun p : (T × VLLMRevisionBridge P I) × List SessionRevisionUpdate => J p.2 p.1.2)
    (fun _ => keeps_behind _) (fun _ => keeps_behind _)
  refine hsteps.exec (fun event _ => ?_) (fun _ _ _ hr => hr)
  refine engine_handleEvent (c := bridgedServices c wrap)
    (J := fun p : (T × VLLMRevisionBridge P I) × List SessionRevisionUpdate => J p.2 p.1.2)
    (fun _ => keeps_behind _) (fun _ => keeps_behind _) (fun _ _ _ _ _ => keeps_behind _) ?_ event
  rintro f ⟨⟩ u
  refine keeps_iff.mpr (fun p hp => ensures_bind.mpr (ensures_focus.mpr (ensures_focus.mpr ?_)))
  refine (hupdate p.2 p.1.2 u hp).mono (fun _ b hb => ?_) (fun _ b hb => hb)
  exact Ensures.of_ok (modify_apply _ _) hb

end Calls

theorem InStep.step (h : r.InStep s) {move : BridgedMove P I} (hfed : FedByRuntime s move r) :
    (after (act c wrap move) r).InStep s := by
  cases move with
  | call call =>
    refine ⟨keeps_synced_recorded (bridged_records c wrap) call _ h.1,?_⟩
    exact keeps_exec (J := fun us b => Feeds s us r.yielded b)
      (fun _ _ u hb => hb.updateSession u) call _ h.2
  | client call => exact ⟨h.1.congr h.1.1 rfl rfl rfl,h.2.exec hfed⟩

/-- A stream that the session had at some time is followed from there on. -/
theorem follows_run (h : r.InStep s) {handle : ℕ} (hs : r.bridge.streams.get? s = some handle)
    {moves : List (BridgedMove P I)} (hfed : RunMeets (act c wrap) (FedByRuntime s) moves r) :
    let last := runAll (act c wrap) moves r
    Follows s handle last.taken last.yielded last.bridge := by
  have hrun := hfed.keeps
    (I := fun r => r.InStep s ∧ Follows s handle r.taken r.yielded r.bridge)
    (fun move r hr hm => ⟨hr.1.step hm,?_⟩) ⟨h,.inl hs⟩
  · exact hrun.2
  cases move with
  | call call =>
    exact keeps_exec (J := fun us b => Follows s handle us r.yielded b)
      (fun _ _ u hb => hb.updateSession u) call _ hr.2
  | client call => exact hr.2.exec hr.1.2 hm

theorem inStep_init (s : SessionId) (blockSize : ℕ) (hblock : 0 < blockSize) (admissionCap : ℕ)
    (hcap : 0 < admissionCap) (engine : T) :
    (init (P := P) (I := I) blockSize hblock admissionCap hcap engine).InStep s := by
  refine ⟨synced_init blockSize hblock admissionCap hcap _,fun t handle ht => ?_,fun t handle ht => ?_,
    fun y hy => ?_,fun handle hs => ?_⟩
  · cases ht
  · cases ht
  · cases hy
  · cases hs

/-- The inputs that the default factory builds for the updates splice as the updates do. -/
theorem splice_inputs {inputs : List (StreamingInput P)} {us : List SessionRevisionUpdate}
    {installed : Bool} {samplingParams : P}
    (h : inputs.map some = us.map (fun u => buildVllmInput installed (.revision u) samplingParams)) :
    inputs.foldl (fun tokens input => tokens.take input.revision.replaceFrom ++ input.promptTokenIds) []
      = engineTokens us := by
  unfold engineTokens
  generalize ([] : List Token) = tokens
  induction inputs generalizing us tokens with
  | nil =>
    cases us with
    | nil => rfl
    | cons u rest => cases h
  | cons input inputs ih =>
    cases us with
    | nil => cases h
    | cons u rest =>
      obtain ⟨hfirst,hrest⟩ := List.cons.inj h
      have hinput : tokens.take input.revision.replaceFrom ++ input.promptTokenIds =
          u.splice tokens := by
        cases installed with
        | false => cases hfirst
        | true =>
          cases hfirst
          rfl
      rw [List.foldl_cons,List.foldl_cons,hinput]
      exact ih hrest _

/-- The runtime's part: an event adds one update of `s`, which ends in the whole transcript,
or none. -/
theorem InStep.handled (h : r.InStep s) (event : STTEvent) :
    let next := after (handleEvent (bridgedServices c wrap) event) r.runtime
    updatesOf s next.engine.2 = updatesOf s r.taken ∨
      ∃ u, updatesOf s next.engine.2 = updatesOf s r.taken ++ [u] ∧
        outcome (VersionedKVManager.sessionTokens s) next.kv =
          .ok (next.sessions.current s).allTokens ∧
        engineTokens (updatesOf s next.engine.2) = (next.sessions.current s).allTokens := by
  intro next
  obtain ⟨t,hsettled⟩ := handleEvent_recorded (bridged_records c wrap) event h.1
  rcases hsettled.2.caught with hsame | ⟨u,hu,rfl,hengine,hsession⟩
  · exact .inl (by rw [hsame]; rfl)
  · by_cases hs : u.sessionId = s
    · subst hs
      refine .inr ⟨u,?_,?_,hengine.symm.trans hsession⟩
      · rw [hu,updatesOf_concat_self rfl]
        rfl
      · rw [outcome_sessionTokens hsettled.1]
        exact congrArg _ hsession
    · left
      rw [hu,updatesOf_concat_ne hs]
      rfl

/-- A stream that the session had at some time serves the updates of the session that were
taken, whether or not the session was closed since; if it was closed before the first of them,
it has none. -/
theorem runtime_feeds_streams (c : Services T) (wrap : BridgeError → EngineError) (s : SessionId)
    (blockSize : ℕ) (hblock : 0 < blockSize) (admissionCap : ℕ) (hcap : 0 < admissionCap)
    (engine : T) (moves : List (BridgedMove P (StreamingInput P)))
    (hfed : RunMeets (act c wrap) (FedByRuntime s) moves
      (init blockSize hblock admissionCap hcap engine)) :
    let start := init blockSize hblock admissionCap hcap engine
    let r := runAll (act c wrap) moves start
    (∃ tokens, outcome (VersionedKVManager.sessionTokens s) r.runtime.kv = .ok tokens ∧
      tokens <+: engineTokens (updatesOf s r.taken)) ∧
    (∀ event, let next := after (handleEvent (bridgedServices c wrap) event) r.runtime
      updatesOf s next.engine.2 = updatesOf s r.taken ∨
        ∃ u, updatesOf s next.engine.2 = updatesOf s r.taken ++ [u] ∧
          outcome (VersionedKVManager.sessionTokens s) next.kv =
            .ok (next.sessions.current s).allTokens ∧
          engineTokens (updatesOf s next.engine.2) = (next.sessions.current s).allTokens) ∧
    Runtime.Stream (updatesOf s r.taken) ∧
    ∀ pre post handle, moves = pre ++ post →
      (runAll (act c wrap) pre start).bridge.streams.get? s = some handle →
      ∃ stream ∈ r.bridge.objects[handle]?, ∃ delivered queued,
        (updatesOf s r.taken = delivered ++ queued ∨
          [] = delivered ++ queued ∧ r.bridge.streams.get? s ≠ some handle) ∧
        (inputsOf handle r.yielded).map some =
          delivered.map (fun u => stream.inputFactory (.revision u) stream.samplingParams) ∧
        (stream.consumer = .iterating →
          (updates stream.queue.items).map Prod.snd = queued.map VLLMStreamUpdate.revision) ∧
        ∀ installed, stream.inputFactory = buildVllmInput installed →
          (inputsOf handle r.yielded).foldl
            (fun tokens input => tokens.take input.revision.replaceFrom ++ input.promptTokenIds) [] =
              engineTokens delivered := by
  intro start r
  have hstart : start.InStep s := inStep_init s blockSize hblock admissionCap hcap engine
  have h : r.InStep s := RunMeets.keeps (fun move r hr hm => hr.step hm) hstart hfed
  refine ⟨⟨_,outcome_sessionTokens h.1.1 s,h.1.2.lagging s⟩,fun event => h.handled event,
    h.1.2.stream s,?_⟩
  intro pre post handle hmoves hs
  have hfollows : Follows s handle r.taken r.yielded r.bridge := by
    rw [hmoves] at hfed
    obtain ⟨hpre,hpost⟩ := runMeets_append.mp hfed
    have hrun := follows_run (RunMeets.keeps (fun move r hr hm => hr.step hm) hstart hpre) hs hpost
    rwa [← runAll_append,← hmoves] at hrun
  obtain ⟨us,hus,stream,hstream,hserves⟩ : ∃ us, (updatesOf s r.taken = us ∨
      [] = us ∧ r.bridge.streams.get? s ≠ some handle) ∧
      ∃ stream ∈ r.bridge.objects[handle]?, Serves us (inputsOf handle r.yielded) stream := by
    rcases hfollows with hlisted | ⟨us,hdetached,hserved⟩
    · exact ⟨_,.inl rfl,h.2.served handle hlisted⟩
    · obtain ⟨stream,hstream,-,hserves⟩ := hdetached.served
      refine ⟨us,?_,stream,hstream,hserves⟩
      rcases hserved with rfl | ⟨rfl,-⟩
      · exact .inr ⟨rfl,hdetached.unlisted s⟩
      · exact .inl rfl
  obtain ⟨delivered,queued,hsplit,hinputs,hqueue⟩ := hserves
  subst hsplit
  refine ⟨stream,hstream,delivered,queued,hus,hinputs,hqueue,fun installed hdefault => ?_⟩
  rw [hdefault] at hinputs
  exact splice_inputs hinputs

/-- A stream of one update refuses the final, and takes the next one, which is cut where the
cache was. The session is closed while that is queued, and its consumer is still given it. -/
theorem runtime_feeds_streams_full :
    let c := quietServices lenientTokenizer
    let wrap : BridgeError → EngineError := fun _ => ⟨[]⟩
    let opened : List (BridgedMove Unit (StreamingInput Unit)) :=
      [.client (.openSession (lit "s") () 1 (buildVllmInput true))]
    let heardSince : List (BridgedMove Unit (StreamingInput Unit)) := [
      .call (.handleEvent (heard "g" 0 .appendPartial "hello there" (by decide) (by decide))),
      .call (.handleEvent (heard "g" 1 .commitFinal "hello you" (by decide) (by decide))),
      .client (.pull 0),
      .call (.handleEvent (heard "h" 0 .commitFinal "bye" (by decide) (by decide))),
      .client (.closeSessionNowait (lit "s")),
      .client (.pull 0)]
    let r := runAll (act c wrap) (opened ++ heardSince) (init 4 (by decide) 8 (by decide) ())
    (∃ stream ∈ r.bridge.objects[0]?, ∃ delivered queued,
      (updatesOf (lit "s") r.taken = delivered ++ queued ∨
        [] = delivered ++ queued ∧ r.bridge.streams.get? (lit "s") ≠ some 0) ∧
      (inputsOf 0 r.yielded).map some =
        delivered.map (fun u => stream.inputFactory (.revision u) stream.samplingParams)) ∧
    r.bridge.streams.get? (lit "s") = none ∧
    r.taken.map (fun u => (u.version,u.replaceFrom)) = [(1,0),(3,5)] ∧
    (inputsOf 0 r.yielded).map StreamingInput.promptTokenIds =
      r.taken.map SessionRevisionUpdate.replacementTokenIds := by
  intro c wrap opened heardSince r
  have hfed : RunMeets (act c wrap) (FedByRuntime (lit "s")) (opened ++ heardSince)
      (init 4 (by decide) 8 (by decide) ()) :=
    ⟨fun _ => rfl,trivial,trivial,trivial,trivial,trivial,trivial,trivial⟩
  obtain ⟨-,-,-,hstreams⟩ := runtime_feeds_streams c wrap (lit "s") 4 (by decide) 8 (by decide) ()
    (opened ++ heardSince) hfed
  obtain ⟨stream,hstream,delivered,queued,hsplit,hinputs,-⟩ :=
    hstreams opened heardSince 0 rfl (by decide +kernel)
  exact ⟨⟨stream,hstream,delivered,queued,hsplit,hinputs⟩,by decide +kernel,by decide +kernel,
    by decide +kernel⟩

end BridgedRuntime

end CueBee.Bridge
