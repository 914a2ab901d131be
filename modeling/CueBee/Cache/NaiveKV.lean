import Mathlib.Data.List.DropRight
import Mathlib.Logic.Function.Basic
import CueBee.Cache.VersionedKVManager

/-! # The cache without blocks

What the manager is for: every session owns a private list of tokens with validities and
every branch owns a private list of tokens. An operation that the model rejects is `none`.
-/
namespace CueBee.Cache

structure NaiveKV where
  sessions : SessionId → List (Token × Validity)
  branches : BranchId → Option (List Token)

namespace NaiveKV

def empty : NaiveKV := ⟨fun _ => [],fun _ => none⟩

def putSession (n : NaiveKV) (sessionId : SessionId) (xs : List (Token × Validity)) : NaiveKV :=
  { n with sessions := Function.update n.sessions sessionId xs }

def putBranch (n : NaiveKV) (branchId : BranchId) (xs : Option (List Token)) : NaiveKV :=
  { n with branches := Function.update n.branches branchId xs }

/-- The end of the last committed token. -/
def committedEnd (xs : List (Token × Validity)) : ℕ :=
  (xs.rdropWhile (fun x => x.2 ≠ .committed)).length

def appendSession (sessionId : SessionId) (tokenIds : List Token) (validity : Validity)
    (n : NaiveKV) : Option NaiveKV :=
  if validity = .invalidated then none
  else some (n.putSession sessionId (n.sessions sessionId ++ tokenIds.map (fun t => (t,validity))))

def rollbackTentative (sessionId : SessionId) (fromToken : ℤ) (n : NaiveKV) : Option NaiveKV :=
  if fromToken < committedEnd (n.sessions sessionId) then none
  else some (n.putSession sessionId ((n.sessions sessionId).take fromToken.toNat))

def commitTentative (sessionId : SessionId) (frontier : ℤ) (n : NaiveKV) : Option NaiveKV :=
  if frontier ≠ (n.sessions sessionId).length then none
  else some (n.putSession sessionId ((n.sessions sessionId).map (fun x => (x.1,.committed))))

/-- The tokens that a fork takes over. -/
def forked (includeTentative : Bool) (xs : List (Token × Validity)) : List Token :=
  (xs.filter (fun x => includeTentative || x.2 = .committed)).map Prod.fst

def forkBranch (branchId : BranchId) (sessionId : SessionId) (includeTentative : Bool)
    (n : NaiveKV) : Option NaiveKV :=
  match n.branches branchId with
  | some _ => none
  | none => some (n.putBranch branchId (some (forked includeTentative (n.sessions sessionId))))

def appendBranch (branchId : BranchId) (tokenIds : List Token) (n : NaiveKV) : Option NaiveKV :=
  match n.branches branchId with
  | none => none
  | some xs => some (n.putBranch branchId (some (xs ++ tokenIds)))

def releaseBranch (branchId : BranchId) (n : NaiveKV) : Option NaiveKV :=
  some (n.putBranch branchId none)

section Lookup
variable (n : NaiveKV) {s t : SessionId} {b c : BranchId}

@[simp] theorem branches_putSession (s : SessionId) (xs : List (Token × Validity)) :
    (n.putSession s xs).branches = n.branches := rfl
@[simp] theorem sessions_putBranch (b : BranchId) (xs : Option (List Token)) :
    (n.putBranch b xs).sessions = n.sessions := rfl
@[simp] theorem sessions_putSession_self (s : SessionId) (xs : List (Token × Validity)) :
    (n.putSession s xs).sessions s = xs := Function.update_self ..
@[simp] theorem branches_putBranch_self (b : BranchId) (xs : Option (List Token)) :
    (n.putBranch b xs).branches b = xs := Function.update_self ..

theorem sessions_putSession_ne (h : t ≠ s) (xs : List (Token × Validity)) :
    (n.putSession s xs).sessions t = n.sessions t := Function.update_of_ne h ..

theorem branches_putBranch_ne (h : c ≠ b) (xs : Option (List Token)) :
    (n.putBranch b xs).branches c = n.branches c := Function.update_of_ne h ..

@[simp] theorem putSession_self (s : SessionId) : n.putSession s (n.sessions s) = n := by
  simp [putSession]

@[simp] theorem putBranch_self (b : BranchId) : n.putBranch b (n.branches b) = n := by
  simp [putBranch]

end Lookup

@[simp] theorem committedEnd_nil : committedEnd [] = 0 := rfl

theorem committedEnd_append_committed (xs : List (Token × Validity)) {ys : List (Token × Validity)}
    (hne : ys ≠ []) (hys : ∀ y ∈ ys, y.2 = .committed) :
    committedEnd (xs ++ ys) = xs.length + ys.length := by
  obtain ⟨init,last,rfl⟩ := List.eq_nil_or_concat' ys |>.resolve_left hne
  have hlast : last.2 = .committed := hys last (by simp)
  rw [committedEnd,← List.append_assoc,List.rdropWhile_concat_neg _ _ _ (by simp [hlast])]
  simp only [List.length_append,List.length_singleton]
  omega

theorem committedEnd_append_open (xs : List (Token × Validity)) {ys : List (Token × Validity)}
    (hys : ∀ y ∈ ys, y.2 ≠ .committed) : committedEnd (xs ++ ys) = committedEnd xs := by
  induction ys using List.reverseRecOn with
  | nil => rw [List.append_nil]
  | append_singleton init last ih =>
    have hlast : last.2 ≠ .committed := hys last (by simp)
    rw [committedEnd,← List.append_assoc,List.rdropWhile_concat_pos _ _ _ (by simp [hlast])]
    exact ih (fun y hy => hys y (by simp [hy]))

end NaiveKV
end CueBee.Cache
