import Mathlib.Data.List.Perm.Basic
import Mathlib.Data.Prod.Lex

/-! # The first greatest element of a list

A search that keeps what it has until something strictly greater comes returns the first of
the elements whose key is greatest. With pairs for keys, compared by their first parts and then
by their second, that is the first of the best among the elements of greatest first part.
-/
namespace CueBee

/-- `x` is the first element of greatest key. -/
def FirstGreatest {α κ : Type*} [Preorder κ] (key : α → κ) (xs : List α) (x : α) : Prop :=
  ∃ pre post, xs = pre ++ x :: post ∧ (∀ y ∈ pre, key y < key x) ∧ ∀ y ∈ post, key y ≤ key x

namespace FirstGreatest
variable {α κ μ : Type*}

section Preorder
variable [Preorder κ] {key : α → κ} {xs ys : List α} {x y : α}

theorem mem (h : FirstGreatest key xs x) : x ∈ xs := by
  obtain ⟨pre,post,rfl,-,-⟩ := h
  exact List.mem_append_right _ List.mem_cons_self

theorem le (h : FirstGreatest key xs x) : ∀ y ∈ xs, key y ≤ key x := by
  obtain ⟨pre,post,rfl,hpre,hpost⟩ := h
  intro y hy
  rcases List.mem_append.mp hy with hy | hy
  · exact (hpre y hy).le
  · rcases List.mem_cons.mp hy with rfl | hy
    · exact le_rfl
    · exact hpost y hy

theorem head (h : ∀ y ∈ xs, key y ≤ key x) : FirstGreatest key (x :: xs) x :=
  ⟨[],xs,rfl,by simp,h⟩

theorem cons (h : FirstGreatest key xs x) (hlt : key y < key x) :
    FirstGreatest key (y :: xs) x := by
  obtain ⟨pre,post,rfl,hpre,hpost⟩ := h
  exact ⟨y :: pre,post,rfl,List.forall_mem_cons.mpr ⟨hlt,hpre⟩,hpost⟩

/-- An element in the second place that is not greater than the first. -/
theorem insert (h : FirstGreatest key (y :: xs) x) {z : α} (hle : key z ≤ key y) :
    FirstGreatest key (y :: z :: xs) x := by
  obtain ⟨pre,post,heq,hpre,hpost⟩ := h
  cases pre with
  | nil =>
    obtain ⟨rfl,rfl⟩ := List.cons.inj heq
    exact head (List.forall_mem_cons.mpr ⟨hle,hpost⟩)
  | cons w pre =>
    obtain ⟨rfl,rfl⟩ := List.cons.inj heq
    have hlt := hpre y List.mem_cons_self
    refine ⟨y :: z :: pre,post,rfl,?_,hpost⟩
    exact List.forall_mem_cons.mpr ⟨hlt,List.forall_mem_cons.mpr
      ⟨hle.trans_lt hlt,fun v hv => hpre v (List.mem_cons_of_mem _ hv)⟩⟩

/-- The first greatest of the images is the image of the first greatest. -/
theorem of_map {β : Type*} {f : β → α} {zs : List β} (h : FirstGreatest key (zs.map f) x) :
    ∃ z, x = f z ∧ FirstGreatest (fun w => key (f w)) zs z := by
  obtain ⟨pre,post,heq,hpre,hpost⟩ := h
  obtain ⟨pre',tail,rfl,rfl,htail⟩ := List.map_eq_append_iff.mp heq
  obtain ⟨z,post',rfl,rfl,rfl⟩ := List.map_eq_cons_iff.mp htail
  refine ⟨z,rfl,pre',post',rfl,fun w hw => ?_,fun w hw => ?_⟩
  · exact hpre _ (List.mem_map_of_mem hw)
  · exact hpost _ (List.mem_map_of_mem hw)

/-- A strictly greater element that comes last. -/
theorem last (h : ∀ y ∈ xs, key y < key x) : FirstGreatest key (xs ++ [x]) x :=
  ⟨xs,[],rfl,h,by simp⟩

/-- An element that comes last and is not greater. -/
theorem concat (h : FirstGreatest key xs x) (hle : key y ≤ key x) :
    FirstGreatest key (xs ++ [y]) x := by
  obtain ⟨pre,post,rfl,hpre,hpost⟩ := h
  refine ⟨pre,post ++ [y],by simp,hpre,fun z hz => ?_⟩
  rcases List.mem_append.mp hz with hz | hz
  · exact hpost z hz
  · rw [List.mem_singleton] at hz
    exact hz ▸ hle

theorem append (h : FirstGreatest key (xs ++ ys) x) :
    FirstGreatest key xs x ∨ FirstGreatest key ys x ∧ ∀ y ∈ xs, key y < key x := by
  obtain ⟨pre,post,heq,hpre,hpost⟩ := h
  rcases List.append_eq_append_iff.mp heq with ⟨mid,rfl,hmid⟩ | ⟨mid,rfl,hmid⟩
  · refine .inr ⟨⟨mid,post,hmid,fun z hz => ?_,hpost⟩,fun z hz => ?_⟩
    · exact hpre z (List.mem_append_right _ hz)
    · exact hpre z (List.mem_append_left _ hz)
  · cases mid with
    | nil =>
      rw [List.nil_append] at hmid
      exact .inr ⟨⟨[],post,hmid.symm,by simp,hpost⟩,fun z hz => hpre z (by simpa using hz)⟩
    | cons z mid =>
      simp only [List.cons_append,List.cons.injEq] at hmid
      obtain ⟨rfl,rfl⟩ := hmid
      exact .inl ⟨pre,mid,rfl,hpre,fun z hz => hpost z (List.mem_append_left _ hz)⟩

end Preorder

section PartialOrder
variable [PartialOrder κ] {key : α → κ} {xs ys : List α} {x y : α}

/-- The greatest key does not depend on the order of the list. -/
theorem key_eq (h : FirstGreatest key xs x) (h' : FirstGreatest key ys y)
    (hsame : ∀ z, z ∈ xs ↔ z ∈ ys) : key x = key y :=
  le_antisymm (h'.le x ((hsame x).mp h.mem)) (h.le y ((hsame y).mpr h'.mem))

theorem unique (h : FirstGreatest key xs x) (h' : FirstGreatest key xs y) : x = y := by
  have hkey := h.key_eq h' (fun _ => Iff.rfl)
  obtain ⟨pre,post,rfl,hpre,-⟩ := h
  rcases h'.append with hearly | ⟨hlate,-⟩
  · exact absurd hkey (hpre y hearly.mem).ne'
  · obtain ⟨pre',post',heq,hpre',-⟩ := hlate
    cases pre' with
    | nil =>
      rw [List.nil_append,List.cons.injEq] at heq
      exact heq.1
    | cons z pre' =>
      rw [List.cons_append,List.cons.injEq] at heq
      have hlt := hpre' z List.mem_cons_self
      rw [← heq.1] at hlt
      exact absurd hkey hlt.ne

end PartialOrder

/-- The first of the lexicographically greatest. -/
theorem of_lex [PartialOrder κ] [PartialOrder μ] [DecidableEq κ] {f : α → κ} {g : α → μ}
    {xs : List α} {x : α} (h : FirstGreatest (fun y => toLex (f y,g y)) xs x) :
    (∀ y ∈ xs, f y ≤ f x) ∧ FirstGreatest g (xs.filter (fun y => f y = f x)) x := by
  have hle := h.le
  simp only [Prod.Lex.toLex_le_toLex] at hle
  refine ⟨fun y hy => ?_,?_⟩
  · rcases hle y hy with hlt | ⟨heq,-⟩
    · exact hlt.le
    · exact heq.le
  · obtain ⟨pre,post,rfl,hpre,hpost⟩ := h
    refine ⟨pre.filter (fun y => f y = f x),post.filter (fun y => f y = f x),by simp,?_,?_⟩
    · intro y hy
      obtain ⟨hy,heq⟩ := List.mem_filter.mp hy
      have heq := of_decide_eq_true heq
      rcases Prod.Lex.toLex_lt_toLex.mp (hpre y hy) with hlt | ⟨-,hlt⟩
      · exact absurd heq hlt.ne
      · exact hlt
    · intro y hy
      obtain ⟨hy,heq⟩ := List.mem_filter.mp hy
      have heq := of_decide_eq_true heq
      rcases Prod.Lex.toLex_le_toLex.mp (hpost y hy) with hlt | ⟨-,hle⟩
      · exact absurd heq hlt.ne
      · exact hle

end FirstGreatest
end CueBee
