import Mathlib.Data.Multiset.Filter
import Mathlib.Logic.Relation
import CueBee.Bridge.VLLMRevisionBridge

/-! # Publishers, closers and the consumer of one stream

The calls on a stream interleave at their suspension points. `publish` looks at the flag only
before it is suspended, so an update can still be on its way when the terminator is put.
The ledger below is what matters of a stream: what was put, and what is still to be put.
-/
namespace CueBee.Bridge
open CueBee.Runtime Asyncio Raising PyStr

/-- The updates among the items of a queue, with their numbers. -/
def updates (items : List QueueItem) : List (ℕ × VLLMStreamUpdate) :=
  items.filterMap (fun item => match item with
    | .update serial update => some (serial,update)
    | .terminator => none)

def QueueItem.serial : QueueItem → Option ℕ
  | .update serial _ => some serial
  | .terminator => none

@[simp] theorem updates_append (xs ys : List QueueItem) : updates (xs ++ ys) = updates xs ++ updates ys :=
  List.filterMap_append

@[simp] theorem updates_terminator : updates [.terminator] = [] := rfl
@[simp] theorem updates_update (serial : ℕ) (update : VLLMStreamUpdate) :
    updates [.update serial update] = [(serial,update)] := rfl

theorem updates_serials (items : List QueueItem) :
    (updates items).map Prod.fst = items.filterMap QueueItem.serial := by
  rw [updates,List.map_filterMap]
  refine List.filterMap_congr (fun item _ => ?_)
  cases item <;> rfl

structure Ledger where
  enqueued : List QueueItem
  pending : Multiset QueueItem
  closed : Bool
  published : ℕ

namespace Ledger

/-- The steps of the calls on a stream. The terminator is put only when no update is pending. -/
inductive Step : Ledger → Ledger → Prop
  | refuse (l : Ledger) : Step l { l with published := l.published + 1 }
  | mark (l : Ledger) : Step l { l with closed := true }
  | publish (l : Ledger) (update : VLLMStreamUpdate) (hopen : l.closed = false) :
      Step l { l with
        pending := .update l.published update ::ₘ l.pending
        published := l.published + 1 }
  | close (l : Ledger) (hopen : l.closed = false) :
      Step l { l with pending := .terminator ::ₘ l.pending, closed := true }
  | enter (l : Ledger) (item : QueueItem) (rest : Multiset QueueItem)
      (hpending : l.pending = item ::ₘ rest)
      (hlast : item = .terminator → ∀ other ∈ rest, other = .terminator) :
      Step l { l with enqueued := l.enqueued ++ [item], pending := rest }

/-- Everything that was put or is to be put. -/
def all (l : Ledger) : Multiset QueueItem := l.enqueued + l.pending

/-- At most one terminator, at the end of everything, and no number twice. -/
structure Sealed (l : Ledger) : Prop where
  open_clean : l.closed = false → .terminator ∉ l.all
  one_terminator : l.all.count .terminator ≤ 1
  nothing_pending : .terminator ∈ l.enqueued → l.pending = 0
  terminator_last : ∀ pre post, l.enqueued = pre ++ .terminator :: post → post = []
  numbered : ∀ n ∈ l.all.filterMap QueueItem.serial, n < l.published
  distinct : (l.all.filterMap QueueItem.serial).Nodup

theorem all_cons (l : Ledger) (item : QueueItem) (closed : Bool) (published : ℕ) :
    all ⟨l.enqueued,item ::ₘ l.pending,closed,published⟩ = item ::ₘ l.all :=
  Multiset.add_cons _ _ _

/-- An item that enters the queue was pending before. -/
theorem all_enter {l : Ledger} {item : QueueItem} {rest : Multiset QueueItem}
    (h : l.pending = item ::ₘ rest) :
    all { l with enqueued := l.enqueued ++ [item], pending := rest } = l.all := by
  show ((l.enqueued ++ [item] : List QueueItem) + rest : Multiset QueueItem) = l.enqueued + l.pending
  rw [h,← Multiset.coe_add,Multiset.coe_singleton,Multiset.add_assoc,Multiset.singleton_add]

theorem Sealed.enter {l : Ledger} (h : l.Sealed) {item : QueueItem} {rest : Multiset QueueItem}
    (hpending : l.pending = item ::ₘ rest)
    (hlast : item = .terminator → ∀ other ∈ rest, other = .terminator) :
    Sealed { l with enqueued := l.enqueued ++ [item], pending := rest } := by
  have hall := all_enter hpending
  have hnone : .terminator ∉ l.enqueued := by
    intro hmem
    have hzero := h.nothing_pending hmem
    rw [hpending] at hzero
    exact Multiset.cons_ne_zero hzero
  refine ⟨?_,?_,?_,?_,?_,?_⟩
  · rw [hall]
    exact h.open_clean
  · rw [hall]
    exact h.one_terminator
  · intro hmem
    have hitem : item = .terminator := by
      rcases List.mem_append.mp hmem with hmem | hmem
      · exact absurd hmem hnone
      · exact (List.mem_singleton.mp hmem).symm
    -- a second pending item would be a second terminator
    refine Multiset.eq_zero_of_forall_notMem (fun other hother => ?_)
    obtain rfl := hlast hitem other hother
    have htwo : l.pending.count .terminator ≤ 1 :=
      (Multiset.count_le_of_le _ (Multiset.le_add_left _ _)).trans h.one_terminator
    rw [hpending,hitem,Multiset.count_cons_self] at htwo
    have hthis : 1 ≤ rest.count .terminator := Multiset.one_le_count_iff_mem.mpr hother
    omega
  · intro pre post heq
    rcases List.append_eq_append_iff.mp heq with ⟨mid,hpre,hmid⟩ | ⟨mid,henq,hmid⟩
    · cases mid with
      | nil => exact (List.cons.inj hmid).2.symm
      | cons first mid => exact absurd (List.cons.inj hmid).2 (by simp)
    · cases mid with
      | nil => exact (List.cons.inj hmid.symm).2.symm
      | cons first mid =>
        obtain ⟨rfl,-⟩ := List.cons.inj hmid
        exact absurd (henq ▸ List.mem_append_right pre List.mem_cons_self) hnone
  · rw [hall]
    exact h.numbered
  · rw [hall]
    exact h.distinct

theorem Sealed.publish {l : Ledger} (h : l.Sealed) (update : VLLMStreamUpdate)
    (hopen : l.closed = false) :
    Sealed { l with
      pending := .update l.published update ::ₘ l.pending
      published := l.published + 1 } := by
  have hall := all_cons l (.update l.published update) l.closed (l.published + 1)
  have hserials : (QueueItem.update l.published update ::ₘ l.all).filterMap QueueItem.serial =
      l.published ::ₘ l.all.filterMap QueueItem.serial :=
    Multiset.filterMap_cons_some _ _ _ rfl
  have hclean := h.open_clean hopen
  refine ⟨?_,?_,?_,h.terminator_last,?_,?_⟩
  · intro _ hmem
    rw [hall] at hmem
    exact hclean ((Multiset.mem_cons.mp hmem).resolve_left (by simp))
  · rw [hall,Multiset.count_cons_of_ne (by simp)]
    exact h.one_terminator
  · exact fun hmem => absurd (Multiset.mem_add.mpr (.inl hmem)) hclean
  · intro n hn
    rw [hall,hserials] at hn
    rcases Multiset.mem_cons.mp hn with rfl | hn
    · exact Nat.lt_succ_self _
    · exact Nat.lt_succ_of_lt (h.numbered n hn)
  · rw [hall,hserials]
    exact Multiset.nodup_cons.mpr ⟨fun hmem => lt_irrefl _ (h.numbered _ hmem),h.distinct⟩

theorem Sealed.close {l : Ledger} (h : l.Sealed) (hopen : l.closed = false) :
    Sealed { l with pending := .terminator ::ₘ l.pending, closed := true } := by
  have hall := all_cons l .terminator true l.published
  have hserials : (QueueItem.terminator ::ₘ l.all).filterMap QueueItem.serial =
      l.all.filterMap QueueItem.serial :=
    Multiset.filterMap_cons_none _ _ rfl
  have hclean := h.open_clean hopen
  refine ⟨fun hfalse => (by cases hfalse),?_,?_,h.terminator_last,?_,?_⟩
  · rw [hall,Multiset.count_cons_self,Multiset.count_eq_zero_of_notMem hclean]
  · exact fun hmem => absurd (Multiset.mem_add.mpr (.inl hmem)) hclean
  · intro n hn
    rw [hall,hserials] at hn
    exact h.numbered n hn
  · rw [hall,hserials]
    exact h.distinct

theorem Sealed.step {l l' : Ledger} (h : l.Sealed) (hstep : Step l l') : l'.Sealed := by
  cases hstep with
  | refuse =>
    exact ⟨h.open_clean,h.one_terminator,h.nothing_pending,h.terminator_last,
      fun n hn => Nat.lt_succ_of_lt (h.numbered n hn),h.distinct⟩
  | mark =>
    exact ⟨fun hfalse => (by cases hfalse),h.one_terminator,h.nothing_pending,h.terminator_last,
      h.numbered,h.distinct⟩
  | publish update hopen => exact h.publish update hopen
  | close hopen => exact h.close hopen
  | enter item rest hpending hlast => exact h.enter hpending hlast

theorem Sealed.steps {l l' : Ledger} (h : l.Sealed) (hsteps : Relation.ReflTransGen Step l l') :
    l'.Sealed := by
  induction hsteps with
  | refl => exact h
  | tail _ hstep ih => exact ih.step hstep

end Ledger

/-- A stream with everything that was put in its queue, the inputs its consumer was given, and
the numbers of the publish calls that returned normally. -/
structure LiveStream (P I : Type) where
  stream : VLLMInputStream P I
  enqueued : List QueueItem
  yielded : List (ℕ × I)
  returned : List ℕ

/-- What one of the tasks around the stream does until its next suspension point. -/
inductive StreamMove
  | publish (update : VLLMStreamUpdate)
  | publishNowait (update : VLLMStreamUpdate)
  | close
  | closeNowait
  | resume (index : ℕ)
  | pull

namespace LiveStream
variable {P I : Type}

def start (stream : VLLMInputStream P I) : LiveStream P I := ⟨stream,[],[],[]⟩

def putStream (stream : VLLMInputStream P I) (s : LiveStream P I) : LiveStream P I :=
  { s with stream := stream }

/-- A put that went through is a call that returned. -/
def record : Option (Put QueueItem) → LiveStream P I → LiveStream P I
  | some (.done item), s => { s with
      enqueued := s.enqueued ++ [item]
      returned := s.returned ++ item.serial.toList }
  | some (.suspended _), s | none, s => s

def call (x : EStateM BridgeError (VLLMInputStream P I) (Option (Put QueueItem))) :
    EStateM BridgeError (LiveStream P I) Unit := do
  let put ← focus stream putStream id x
  modify (record put)

def exec : StreamMove → EStateM BridgeError (LiveStream P I) Unit
  | .publish update => call (some <$> VLLMInputStream.publish update)
  | .publishNowait update => call (some <$> VLLMInputStream.publishNowait update)
  | .close => call VLLMInputStream.close
  | .closeNowait => call VLLMInputStream.closeNowait
  | .resume index => call (VLLMInputStream.resume index)
  | .pull => do
    let got ← focus stream putStream id VLLMInputStream.pull
    modify (fun s => { s with yielded := s.yielded ++ got.toList })

/-- No update is lost, repeated or out of order. -/
structure NothingLost (s : LiveStream P I) : Prop where
  /-- What the consumer was given are the inputs for the updates that were put, in order, and
  the rest of them are still queued. -/
  in_order : ∃ delivered, updates s.enqueued = delivered ++ updates s.stream.queue.items ∧
    s.yielded.map (fun y => (y.1,some y.2)) =
      delivered.map (fun d => (d.1,s.stream.inputFactory d.2 s.stream.samplingParams))
  nothing_behind : ∀ pre post, s.enqueued = pre ++ .terminator :: post → post = []
  no_duplicates : (s.yielded.map Prod.fst).Nodup
  /-- Once the loop has ended, every publish call that returned was yielded exactly once. -/
  complete : s.stream.consumer ≠ .iterating →
    ∀ serial ∈ s.returned, (s.yielded.map Prod.fst).count serial = 1

/-- No publish call is suspended. -/
def Quiet (s : LiveStream P I) : Prop := ∀ item ∈ s.stream.queue.suspended, item = .terminator

/-- A move that puts the terminator finds no publish call suspended, and the factory takes the
update that the consumer is about to get. -/
def Orderly (s : LiveStream P I) : StreamMove → Prop
  | .close | .closeNowait => s.stream.closed = false → s.stream.queue.full = false → s.Quiet
  | .resume index => s.stream.queue.woken[index]? = some .terminator →
      s.stream.queue.full = false → s.Quiet
  | .pull => s.stream.consumer = .iterating →
      ∀ serial update, s.stream.queue.items.head? = some (.update serial update) →
        s.stream.inputFactory update s.stream.samplingParams ≠ none
  | .publish _ | .publishNowait _ => True

def ledger (s : LiveStream P I) : Ledger :=
  ⟨s.enqueued,s.stream.queue.suspended,s.stream.closed,s.stream.published⟩

/-- What the calls of publishers and closers do. -/
structure Grown (s s' : LiveStream P I) : Prop where
  put : ∃ new, s'.enqueued = s.enqueued ++ new ∧
    s'.stream.queue.items = s.stream.queue.items ++ new ∧
    s'.returned = s.returned ++ new.filterMap QueueItem.serial
  steps : Relation.ReflTransGen Ledger.Step s.ledger s'.ledger
  yielded : s'.yielded = s.yielded
  consumer : s'.stream.consumer = s.stream.consumer
  factory : s'.stream.inputFactory = s.stream.inputFactory
  params : s'.stream.samplingParams = s.stream.samplingParams

variable {s : LiveStream P I}
  {x : EStateM BridgeError (VLLMInputStream P I) (Option (Put QueueItem))}

theorem after_call_ok {put : Option (Put QueueItem)} {t : VLLMInputStream P I}
    (h : x s.stream = .ok put t) : after (call x) s = (s.putStream t).record put :=
  after_ok (bind_ok (focus_ok h))

theorem after_call_error {e : BridgeError} {t : VLLMInputStream P I}
    (h : x s.stream = .error e t) : after (call x) s = s.putStream t :=
  after_error (bind_error (focus_error h))

theorem Grown.refl (s : LiveStream P I) : s.Grown s :=
  ⟨⟨[],by simp⟩,.refl,rfl,rfl,rfl,rfl⟩

theorem Grown.of_step {t : VLLMInputStream P I} (hqueue : t.queue = s.stream.queue)
    (hconsumer : t.consumer = s.stream.consumer) (hfactory : t.inputFactory = s.stream.inputFactory)
    (hparams : t.samplingParams = s.stream.samplingParams)
    (hstep : Ledger.Step s.ledger (s.putStream t).ledger) : s.Grown (s.putStream t) :=
  ⟨⟨[],by simp [putStream,hqueue]⟩,.single hstep,rfl,hconsumer,hfactory,hparams⟩

/-- The end of a put: the item goes from the pending ones into the queue, or stays pending. -/
theorem Grown.of_put {item : QueueItem} {t : VLLMInputStream P I}
    (hitems : t.queue.items = s.stream.queue.items) (hconsumer : t.consumer = s.stream.consumer)
    (hfactory : t.inputFactory = s.stream.inputFactory)
    (hparams : t.samplingParams = s.stream.samplingParams)
    (hsteps : Relation.ReflTransGen Ledger.Step s.ledger
      ⟨s.enqueued,item ::ₘ t.queue.suspended,t.closed,t.published⟩)
    (hlast : item = .terminator → t.queue.full = false →
      ∀ other ∈ t.queue.suspended, other = .terminator) :
    s.Grown ((s.putStream { t with queue := (t.queue.put item).2 }).record
      (some (t.queue.put item).1)) := by
  rcases BoundedQueue.put_cases item t.queue with ⟨hroom,hput⟩ | ⟨-,hput⟩
  · rw [hput]
    refine ⟨⟨[item],rfl,?_,?_⟩,?_,rfl,hconsumer,hfactory,hparams⟩
    · exact congrArg (· ++ [item]) hitems
    · show s.returned ++ item.serial.toList = s.returned ++ [item].filterMap QueueItem.serial
      cases item <;> rfl
    · refine hsteps.tail (Ledger.Step.enter _ item t.queue.suspended rfl ?_)
      intro hitem other hother
      exact hlast hitem hroom other (Multiset.mem_coe.mp hother)
  · rw [hput]
    refine ⟨⟨[],by simp [putStream,record,hitems]⟩,?_,rfl,hconsumer,hfactory,hparams⟩
    have hpending : ((t.queue.waiting ++ [item] ++ t.queue.woken : List QueueItem) :
        Multiset QueueItem) = item ::ₘ t.queue.suspended := by
      rw [List.append_assoc]
      exact Multiset.coe_eq_coe.mpr List.perm_middle
    show Relation.ReflTransGen Ledger.Step s.ledger
      ⟨s.enqueued,(t.queue.waiting ++ [item] ++ t.queue.woken : List QueueItem),t.closed,t.published⟩
    rwa [hpending]

theorem grown_publish (update : VLLMStreamUpdate) (s : LiveStream P I) :
    s.Grown (after (exec (.publish update)) s) := by
  cases hclosed : s.stream.closed with
  | true =>
    rw [exec,after_call_error (map_error (VLLMInputStream.publish_closed update hclosed))]
    exact .refl s
  | false =>
    have hput := VLLMInputStream.publish_open update hclosed
    rw [exec,after_call_ok (map_ok hput)]
    refine Grown.of_put rfl rfl rfl rfl (.single ?_) (fun h => (by cases h))
    exact Ledger.Step.publish s.ledger update hclosed

theorem grown_publishNowait (update : VLLMStreamUpdate) (s : LiveStream P I) :
    s.Grown (after (exec (.publishNowait update)) s) := by
  cases hclosed : s.stream.closed with
  | true =>
    rw [exec,after_call_error (map_error (VLLMInputStream.publishNowait_closed update hclosed))]
    exact .refl s
  | false =>
    have hnumbered := VLLMInputStream.publishNowait_open update hclosed
    cases hfull : s.stream.queue.full with
    | true =>
      rw [exec,after_call_error (map_error
        (hnumbered.trans (VLLMInputStream.putNowait_full _ hfull)))]
      exact .of_step rfl rfl rfl rfl (Ledger.Step.refuse s.ledger)
    | false =>
      rw [exec,after_call_ok (map_ok
        (hnumbered.trans (VLLMInputStream.putNowait_eq_put _ hfull)))]
      refine Grown.of_put rfl rfl rfl rfl (.single ?_) (fun h => (by cases h))
      exact Ledger.Step.publish s.ledger update hclosed

/-- The first close of a stream. -/
theorem grown_closing {s : LiveStream P I} (hclosed : s.stream.closed = false)
    (horderly : s.stream.queue.full = false → s.Quiet)
    (hx : x s.stream = VLLMInputStream.close s.stream) : s.Grown (after (call x) s) := by
  rw [after_call_ok (hx.trans (VLLMInputStream.close_open hclosed))]
  refine Grown.of_put (t := { s.stream with closed := true }) rfl rfl rfl rfl (.single ?_)
    (fun _ hroom => horderly hroom)
  exact Ledger.Step.close s.ledger hclosed

theorem grown_close (s : LiveStream P I) (horderly : s.Orderly .close) :
    s.Grown (after (exec .close) s) := by
  cases hclosed : s.stream.closed with
  | true =>
    rw [exec,after_call_ok (VLLMInputStream.close_closed hclosed)]
    exact .refl s
  | false => exact grown_closing hclosed (horderly hclosed) rfl

theorem grown_closeNowait (s : LiveStream P I) (horderly : s.Orderly .closeNowait) :
    s.Grown (after (exec .closeNowait) s) := by
  cases hclosed : s.stream.closed with
  | true =>
    rw [exec,after_call_ok (VLLMInputStream.closeNowait_closed hclosed)]
    exact .refl s
  | false =>
    cases hfull : s.stream.queue.full with
    | true =>
      rw [exec,after_call_error (VLLMInputStream.closeNowait_full hclosed hfull)]
      exact .of_step rfl rfl rfl rfl (Ledger.Step.mark s.ledger)
    | false =>
      exact grown_closing hclosed (horderly hclosed)
        (VLLMInputStream.closeNowait_eq_close hclosed hfull)

theorem grown_resume (index : ℕ) (s : LiveStream P I) (horderly : s.Orderly (.resume index)) :
    s.Grown (after (exec (.resume index)) s) := by
  cases hresume : s.stream.queue.resume index with
  | none =>
    have hidle : VLLMInputStream.resume index s.stream = .ok none s.stream := by
      simp only [VLLMInputStream.resume,hresume]
    rw [exec,after_call_ok hidle]
    exact .refl s
  | some resumed =>
    obtain ⟨put,queue⟩ := resumed
    have hresumed : VLLMInputStream.resume index s.stream =
        .ok (some put) { s.stream with queue := queue } := by
      simp only [VLLMInputStream.resume,hresume]
    rw [exec,after_call_ok hresumed]
    obtain ⟨item,hwoken,⟨hroom,rfl,hitems,hperm⟩ | ⟨-,rfl,hitems,hperm⟩⟩ :=
      BoundedQueue.resume_some hresume
    · refine ⟨⟨[item],rfl,hitems,?_⟩,.single ?_,rfl,rfl,rfl,rfl⟩
      · show s.returned ++ item.serial.toList = s.returned ++ [item].filterMap QueueItem.serial
        cases item <;> rfl
      · refine Ledger.Step.enter s.ledger item queue.suspended (Multiset.coe_eq_coe.mpr hperm) ?_
        rintro rfl other hother
        have hquiet := horderly hwoken hroom
        exact hquiet other (hperm.mem_iff.mpr (List.mem_cons_of_mem _ (Multiset.mem_coe.mp hother)))
    · refine ⟨⟨[],by simp [putStream,record,hitems]⟩,?_,rfl,rfl,rfl,rfl⟩
      show Relation.ReflTransGen Ledger.Step s.ledger
        ⟨s.enqueued,queue.suspended,s.stream.closed,s.stream.published⟩
      rw [Multiset.coe_eq_coe.mpr hperm]
      exact .refl

/-- What the consumer has taken so far, and what it made of it. -/
structure Consumed (s : LiveStream P I) (taken : List QueueItem) : Prop where
  enqueued : s.enqueued = taken ++ s.stream.queue.items
  yielded : s.yielded.map (fun y => (y.1,some y.2)) = (updates taken).map
    (fun d => (d.1,s.stream.inputFactory d.2 s.stream.samplingParams))
  alive : s.stream.consumer ≠ .raised
  ended : s.stream.consumer = .returned → .terminator ∈ taken
  returned : s.returned = s.enqueued.filterMap QueueItem.serial

theorem Consumed.grown {s s' : LiveStream P I} {taken : List QueueItem} (h : s.Consumed taken)
    (hgrown : s.Grown s') : s'.Consumed taken := by
  obtain ⟨new,henqueued,hitems,hreturned⟩ := hgrown.put
  refine ⟨?_,?_,?_,?_,?_⟩
  · rw [henqueued,hitems,h.enqueued,List.append_assoc]
  · rw [hgrown.yielded,hgrown.factory,hgrown.params]
    exact h.yielded
  · rw [hgrown.consumer]
    exact h.alive
  · rw [hgrown.consumer]
    exact h.ended
  · rw [hreturned,henqueued,h.returned,List.filterMap_append]

theorem ledger_of_perm {s : LiveStream P I} {queue : BoundedQueue QueueItem} {consumer : Consumer}
    {yielded : List (ℕ × I)} (h : queue.suspended.Perm s.stream.queue.suspended) :
    ledger ⟨{ s.stream with queue := queue, consumer := consumer },s.enqueued,yielded,s.returned⟩ =
      s.ledger := by
  unfold ledger
  rw [Multiset.coe_eq_coe.mpr h]

/-- A round of the consumer leaves the ledger alone. -/
theorem consumed_pull {s : LiveStream P I} {taken : List QueueItem} (h : s.Consumed taken)
    (horderly : s.Orderly .pull) :
    (after (exec .pull) s).ledger = s.ledger ∧ ∃ taken', (after (exec .pull) s).Consumed taken' := by
  have hcase := VLLMInputStream.pull_case s.stream
  cases hx : VLLMInputStream.pull s.stream with
  | ok got t =>
    rw [hx] at hcase
    have hafter : after (exec .pull) s =
        { s.putStream t with yielded := s.yielded ++ got.toList } := after_ok (bind_ok (focus_ok hx))
    rw [hafter]
    cases hcase with
    | idle => exact ⟨rfl,taken,h.enqueued,by simpa [putStream] using h.yielded,h.alive,h.ended,h.returned⟩
    | waits => exact ⟨rfl,taken,h.enqueued,by simpa [putStream] using h.yielded,h.alive,h.ended,h.returned⟩
    | ends queue hon hget =>
      obtain ⟨hitems,hperm⟩ := BoundedQueue.getNowait_some hget
      refine ⟨ledger_of_perm hperm,taken ++ [.terminator],?_,?_,?_,?_,h.returned⟩
      · rw [List.append_assoc]
        exact h.enqueued.trans (congrArg (taken ++ ·) hitems)
      · simpa [putStream] using h.yielded
      · simp [putStream]
      · simp
    | yields serial update queue input hon hget hfactory =>
      obtain ⟨hitems,hperm⟩ := BoundedQueue.getNowait_some hget
      refine ⟨ledger_of_perm hperm,taken ++ [.update serial update],?_,?_,h.alive,?_,h.returned⟩
      · rw [List.append_assoc]
        exact h.enqueued.trans (congrArg (taken ++ ·) hitems)
      · rw [updates_append,List.map_append,updates_update]
        simpa [putStream,hfactory] using h.yielded
      · intro hreturned
        rw [show s.stream.consumer = .returned from hreturned] at hon
        cases hon
  | error e t =>
    rw [hx] at hcase
    cases hcase with
    | fails serial update queue hon hget hfactory =>
      have hhead := (BoundedQueue.getNowait_some hget).1
      exact absurd hfactory (horderly hon serial update (hhead ▸ rfl))

/-- What holds of a stream after every orderly move. -/
structure Sound (s : LiveStream P I) : Prop where
  sealed : s.ledger.Sealed
  consumed : ∃ taken, s.Consumed taken

theorem sound_start (samplingParams : P) (maxPendingUpdates : ℕ) (inputFactory : InputFactory P I) :
    (start ⟨samplingParams,.empty maxPendingUpdates,inputFactory,false,.iterating,0⟩).Sound := by
  refine ⟨⟨?_,?_,?_,?_,?_,?_⟩,[],rfl,rfl,by simp [start],by simp [start],rfl⟩
  all_goals simp [ledger,start,Ledger.all,BoundedQueue.suspended,BoundedQueue.empty]

theorem Sound.grown {s s' : LiveStream P I} (h : s.Sound) (hgrown : s.Grown s') : s'.Sound := by
  obtain ⟨taken,hconsumed⟩ := h.consumed
  exact ⟨h.sealed.steps hgrown.steps,taken,hconsumed.grown hgrown⟩

theorem Sound.exec {s : LiveStream P I} (h : s.Sound) {move : StreamMove}
    (horderly : s.Orderly move) : (after (exec move) s).Sound := by
  cases move with
  | publish update => exact h.grown (grown_publish update s)
  | publishNowait update => exact h.grown (grown_publishNowait update s)
  | close => exact h.grown (grown_close s horderly)
  | closeNowait => exact h.grown (grown_closeNowait s horderly)
  | resume index => exact h.grown (grown_resume index s horderly)
  | pull =>
    obtain ⟨taken,hconsumed⟩ := h.consumed
    obtain ⟨hledger,hconsumed'⟩ := consumed_pull hconsumed horderly
    exact ⟨hledger.symm ▸ h.sealed,hconsumed'⟩

theorem Sound.nothingLost {s : LiveStream P I} (h : s.Sound) : s.NothingLost := by
  obtain ⟨taken,hconsumed⟩ := h.consumed
  have hnumbers : s.yielded.map Prod.fst = taken.filterMap QueueItem.serial := by
    have hfst := congrArg (List.map Prod.fst) hconsumed.yielded
    simpa [List.map_map,Function.comp_def,← updates_serials] using hfst
  have hdistinct : (taken.filterMap QueueItem.serial).Nodup := by
    have hall := h.sealed.distinct
    have hsub : (taken.filterMap QueueItem.serial : Multiset ℕ) ≤
        s.ledger.all.filterMap QueueItem.serial := by
      rw [Ledger.all,Multiset.filterMap_add]
      refine le_trans ?_ (Multiset.le_add_right _ _)
      show (taken.filterMap QueueItem.serial : Multiset ℕ) ≤
        (s.enqueued.filterMap QueueItem.serial : List ℕ)
      rw [hconsumed.enqueued,List.filterMap_append]
      exact Multiset.coe_le.mpr (List.sublist_append_left _ _).subperm
    exact Multiset.coe_nodup.mp (Multiset.nodup_of_le hsub hall)
  refine ⟨⟨updates taken,?_,hconsumed.yielded⟩,h.sealed.terminator_last,?_,?_⟩
  · rw [hconsumed.enqueued,updates_append]
  · rwa [hnumbers]
  · intro hended serial hserial
    have hreturned : s.stream.consumer = .returned := by
      cases hconsumer : s.stream.consumer with
      | iterating => exact absurd hconsumer hended
      | raised => exact absurd hconsumer hconsumed.alive
      | returned => rfl
    -- the terminator was taken, so that nothing is left behind it
    obtain ⟨pre,post,htaken⟩ := List.append_of_mem (hconsumed.ended hreturned)
    have henqueued : s.enqueued = pre ++ .terminator :: (post ++ s.stream.queue.items) := by
      rw [hconsumed.enqueued,htaken,List.append_assoc,List.cons_append]
    have hempty := (List.append_eq_nil_iff.mp (h.sealed.terminator_last _ _ henqueued)).2
    rw [hconsumed.returned,hconsumed.enqueued,hempty,List.append_nil] at hserial
    rw [hnumbers]
    exact List.count_eq_one_of_mem hdistinct hserial

/-- In every run in which no publish call is suspended when the terminator is put, and the
factory takes every update, nothing is lost, repeated or out of order. -/
theorem no_update_lost {samplingParams : P} {maxPendingUpdates : ℤ}
    {inputFactory : InputFactory P I} {stream : VLLMInputStream P I}
    (hinit : VLLMInputStream.init samplingParams maxPendingUpdates inputFactory = .ok stream)
    {moves : List StreamMove}
    (horderly : RunMeets exec (fun move s => s.Orderly move) moves (start stream)) :
    (runAll exec moves (start stream)).NothingLost := by
  have hstart : (start stream).Sound := by
    unfold VLLMInputStream.init at hinit
    split at hinit
    · cases hinit
    · cases hinit
      exact sound_start samplingParams maxPendingUpdates.toNat inputFactory
  exact (horderly.keeps (fun move s hs hmove => hs.exec hmove) hstart).nothingLost

/-- The stream of a queue of one update. -/
def narrowStream : VLLMInputStream Unit Unit :=
  ⟨(),.empty 1,fun _ _ => some (),false,.iterating,0⟩

def someUpdate : VLLMStreamUpdate := .revision oneToken

/-- The second publish call is suspended, and resumed before the stream is closed. -/
theorem no_update_lost_narrow :
    let last := runAll exec
      [.publish someUpdate,.publish someUpdate,.pull,.resume 0,.pull,.close,.pull] (start narrowStream)
    last.NothingLost ∧ last.returned = [0,1] ∧ last.stream.consumer = .returned := by
  intro last
  have htakes : ∀ s : LiveStream Unit Unit, s.stream.inputFactory = narrowStream.inputFactory →
      s.Orderly .pull := by
    intro s hfactory _ serial update _ hnone
    rw [hfactory] at hnone
    cases hnone
  refine ⟨@no_update_lost Unit Unit () 1 _ narrowStream rfl _
    ⟨trivial,trivial,htakes _ rfl,?_,htakes _ rfl,?_,htakes _ rfl,trivial⟩,rfl,rfl⟩
  · intro hterminator
    cases hterminator
  · intro _ _ item hitem
    cases hitem

/-- The second update waits for the slot of the first; the terminator gets there before it. -/
theorem overtaken_update_lost :
    ¬(runAll exec [.publishNowait someUpdate,.publish someUpdate,.pull,.closeNowait,.pull,.resume 0]
      (start narrowStream)).NothingLost := by
  intro h
  have hone := h.complete (by decide) 1 (by decide)
  revert hone
  decide

end LiveStream
end CueBee.Bridge
