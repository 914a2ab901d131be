import Mathlib.Data.List.Basic
import Mathlib.Data.List.Perm.Basic

/-! # Bounded queues with suspended producers

A first-in first-out queue of at most `maxSize` items. A put on a full queue is suspended;
a get wakes the put that has waited longest. A put that was woken looks at the queue again
when it is next resumed, and until then other calls may take the free slot.
-/
namespace CueBee.Asyncio

structure BoundedQueue (α : Type) where
  maxSize : ℕ
  items : List α
  /-- The items of the suspended puts, the oldest first. -/
  waiting : List α
  /-- The items of the puts that were woken and have not been resumed. -/
  woken : List α
deriving DecidableEq

/-- What became of a put. -/
inductive Put (α : Type)
  | done (item : α)
  | suspended (item : α)
deriving DecidableEq

namespace BoundedQueue
variable {α : Type}

def empty (maxSize : ℕ) : BoundedQueue α := ⟨maxSize,[],[],[]⟩

def full (q : BoundedQueue α) : Bool := q.maxSize ≤ q.items.length

def suspended (q : BoundedQueue α) : List α := q.waiting ++ q.woken

/-- `put_nowait`; `none` is `QueueFull`. -/
def putNowait (item : α) (q : BoundedQueue α) : Option (BoundedQueue α) :=
  if q.full = true then none else some { q with items := q.items ++ [item] }

/-- `put` up to its return or its suspension. -/
def put (item : α) (q : BoundedQueue α) : Put α × BoundedQueue α :=
  if q.full = true then (.suspended item,{ q with waiting := q.waiting ++ [item] })
  else (.done item,{ q with items := q.items ++ [item] })

/-- `_wakeup_next` for the puts. -/
def wakeNext (q : BoundedQueue α) : BoundedQueue α :=
  match q.waiting with
  | [] => q
  | item :: rest => { q with waiting := rest, woken := q.woken ++ [item] }

/-- `get_nowait`; `none` is `QueueEmpty`. -/
def getNowait (q : BoundedQueue α) : Option (α × BoundedQueue α) :=
  match q.items with
  | [] => none
  | item :: rest => some (item,wakeNext { q with items := rest })

/-- The event loop resumes one of the puts that were woken. -/
def resume (index : ℕ) (q : BoundedQueue α) : Option (Put α × BoundedQueue α) :=
  match q.woken[index]? with
  | none => none
  | some item => some (put item { q with woken := q.woken.eraseIdx index })

@[simp] theorem wakeNext_items (q : BoundedQueue α) : q.wakeNext.items = q.items := by
  unfold wakeNext
  split <;> rfl

theorem wakeNext_suspended (q : BoundedQueue α) : q.wakeNext.suspended.Perm q.suspended := by
  unfold wakeNext suspended
  split
  · exact .refl _
  · next item rest hwaiting =>
    rw [hwaiting,← List.append_assoc]
    exact List.perm_append_singleton item _

/-- A put either goes through on a queue with room or joins the suspended ones. -/
theorem put_cases (item : α) (q : BoundedQueue α) :
    (q.full = false ∧ q.put item = (.done item,{ q with items := q.items ++ [item] })) ∨
    (q.full = true ∧ q.put item = (.suspended item,{ q with waiting := q.waiting ++ [item] })) := by
  unfold put
  split
  · next hfull => exact .inr ⟨hfull,rfl⟩
  · next hroom => exact .inl ⟨by simpa using hroom,rfl⟩

theorem getNowait_none {q : BoundedQueue α} : q.getNowait = none ↔ q.items = [] := by
  unfold getNowait
  split
  · next h => simp [h]
  · next h => simp [h]

/-- A get takes the oldest item and adds nothing to the suspended puts. -/
theorem getNowait_some {item : α} {q q' : BoundedQueue α} (h : q.getNowait = some (item,q')) :
    q.items = item :: q'.items ∧ q'.suspended.Perm q.suspended := by
  unfold getNowait at h
  split at h
  · cases h
  · next first rest hitems =>
    cases h
    refine ⟨?_,?_⟩
    · rw [hitems,wakeNext_items]
    · exact wakeNext_suspended { q with items := rest }

/-- The put that is resumed goes through or is suspended once more. -/
theorem resume_some {index : ℕ} {q q' : BoundedQueue α} {outcome : Put α}
    (h : q.resume index = some (outcome,q')) :
    ∃ item, q.woken[index]? = some item ∧
      ((q.full = false ∧ outcome = .done item ∧ q'.items = q.items ++ [item] ∧
          q.suspended.Perm (item :: q'.suspended)) ∨
        (q.full = true ∧ outcome = .suspended item ∧ q'.items = q.items ∧
          q'.suspended.Perm q.suspended)) := by
  unfold resume at h
  split at h
  · cases h
  · next item hitem =>
    obtain ⟨hindex,hget⟩ := List.getElem?_eq_some_iff.mp hitem
    have hmoved : q.woken.Perm (item :: q.woken.eraseIdx index) :=
      hget ▸ (List.getElem_cons_eraseIdx_perm hindex).symm
    refine ⟨item,hitem,?_⟩
    rcases put_cases item { q with woken := q.woken.eraseIdx index } with ⟨hroom,hput⟩ | ⟨hfull,hput⟩
    · rw [hput] at h
      cases h
      refine .inl ⟨hroom,rfl,rfl,?_⟩
      exact (hmoved.append_left q.waiting).trans List.perm_middle
    · rw [hput] at h
      cases h
      refine .inr ⟨hfull,rfl,rfl,?_⟩
      show ((q.waiting ++ [item]) ++ q.woken.eraseIdx index).Perm (q.waiting ++ q.woken)
      rw [List.append_assoc]
      exact hmoved.symm.append_left q.waiting

end BoundedQueue
end CueBee.Asyncio
