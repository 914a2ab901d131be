import Mathlib.Data.List.Basic
import Mathlib.Data.List.Nodup
import Mathlib.Data.List.Perm.Basic

/-! # Insertion-ordered dictionaries

A finite map that remembers the order in which its keys were first stored.
Storing at a present key keeps the key's place, storing at an absent key appends.
Absence of duplicate keys is a field of the structure, never a premise.
-/
namespace CueBee

/-- An insertion-ordered finite map. -/
structure Dict (K V : Type*) where
  entries : List (K × V)
  nodup_keys : (entries.map Prod.fst).Nodup

namespace Dict
variable {K V W : Type*}

theorem ext_entries {d e : Dict K V} (h : d.entries = e.entries) : d = e := by
  cases d
  cases e
  cases h
  rfl

instance [DecidableEq K] [DecidableEq V] : DecidableEq (Dict K V) := fun d e =>
  decidable_of_iff (d.entries = e.entries) ⟨ext_entries,fun h => congrArg entries h⟩

def empty : Dict K V := ⟨[],by simp⟩

def keys (d : Dict K V) : List K := d.entries.map Prod.fst
def values (d : Dict K V) : List V := d.entries.map Prod.snd
def size (d : Dict K V) : ℕ := d.entries.length

/-- Every value is rewritten in place. -/
def mapValues (f : K → V → W) (d : Dict K V) : Dict K W where
  entries := d.entries.map (fun e => (e.1,f e.1 e.2))
  nodup_keys := by simpa [List.map_map,Function.comp_def] using d.nodup_keys

variable [DecidableEq K]

def get? (d : Dict K V) (k : K) : Option V := d.entries.lookup k

/-- The entry list after storing `v` at `k`. -/
def setEntries (k : K) (v : V) : List (K × V) → List (K × V)
  | [] => [(k,v)]
  | e :: rest => if e.1 = k then (k,v) :: rest else e :: setEntries k v rest

theorem setEntries_of_notMem {k : K} {v : V} {es : List (K × V)} (h : k ∉ es.map Prod.fst) :
    setEntries k v es = es ++ [(k,v)] := by
  induction es with
  | nil => rfl
  | cons e rest ih =>
    simp only [List.map_cons, List.mem_cons, not_or] at h
    simp [setEntries,Ne.symm h.1,ih h.2]

theorem map_fst_setEntries_of_mem {k : K} {v : V} {es : List (K × V)} (h : k ∈ es.map Prod.fst) :
    (setEntries k v es).map Prod.fst = es.map Prod.fst := by
  induction es with
  | nil => simp at h
  | cons e rest ih =>
    by_cases he : e.1 = k
    · simp [setEntries,he]
    · have hr : k ∈ rest.map Prod.fst := by
        simpa [Ne.symm he] using h
      simp [setEntries,he,ih hr]

theorem nodup_setEntries (k : K) (v : V) {es : List (K × V)} (h : (es.map Prod.fst).Nodup) :
    ((setEntries k v es).map Prod.fst).Nodup := by
  by_cases hk : k ∈ es.map Prod.fst
  · rw [map_fst_setEntries_of_mem hk]
    exact h
  · rw [setEntries_of_notMem hk, List.map_append, List.nodup_append]
    refine ⟨h,by simp,?_⟩
    intro a ha b hb
    simp only [List.map_cons, List.map_nil, List.mem_singleton] at hb
    rintro rfl
    exact hk (hb ▸ ha)

/-- `d[k] = v`. -/
def set (d : Dict K V) (k : K) (v : V) : Dict K V :=
  ⟨setEntries k v d.entries,nodup_setEntries k v d.nodup_keys⟩

/-- `del d[k]`, and no change when the key is absent. -/
def erase (d : Dict K V) (k : K) : Dict K V where
  entries := d.entries.filter (fun e => e.1 ≠ k)
  nodup_keys := (List.filter_sublist.map Prod.fst).nodup d.nodup_keys

/-- `d.setdefault(k, v)` as a state change. -/
def setDefault (d : Dict K V) (k : K) (v : V) : Dict K V :=
  match d.get? k with
  | some _ => d
  | none => d.set k v

@[simp] theorem get?_empty (k : K) : (empty : Dict K V).get? k = none := rfl

theorem lookup_cons_if (j k : K) (v : V) (es : List (K × V)) :
    ((k,v) :: es).lookup j = if j = k then some v else es.lookup j := by
  by_cases hj : j = k
  · simp [hj]
  · simp [List.lookup_cons,hj,beq_false_of_ne hj]

theorem lookup_setEntries (k j : K) (v : V) (es : List (K × V)) :
    (setEntries k v es).lookup j = if j = k then some v else es.lookup j := by
  induction es with
  | nil => exact lookup_cons_if j k v []
  | cons e rest ih =>
    obtain ⟨a,b⟩ := e
    by_cases ha : a = k
    · subst ha
      by_cases hj : j = a <;> simp [setEntries,lookup_cons_if,hj]
    · by_cases hj : j = a
      · subst hj
        simp [setEntries,ha]
      · simp [setEntries,lookup_cons_if,ha,hj,ih]

theorem get?_set (d : Dict K V) (k j : K) (v : V) :
    (d.set k v).get? j = if j = k then some v else d.get? j :=
  lookup_setEntries k j v d.entries

@[simp] theorem get?_set_self (d : Dict K V) (k : K) (v : V) : (d.set k v).get? k = some v := by
  simp [get?_set]

theorem get?_set_ne (d : Dict K V) {k j : K} (v : V) (h : j ≠ k) :
    (d.set k v).get? j = d.get? j := by
  simp [get?_set,h]

theorem lookup_filter_ne (k j : K) (es : List (K × V)) :
    (es.filter (fun e => e.1 ≠ k)).lookup j = if j = k then none else es.lookup j := by
  induction es with
  | nil => simp
  | cons e rest ih =>
    obtain ⟨a,b⟩ := e
    by_cases ha : a = k
    · rw [List.filter_cons_of_neg (by simpa using ha), ih, lookup_cons_if]
      by_cases hj : j = k <;> simp [hj,ha]
    · rw [List.filter_cons_of_pos (by simpa using ha), lookup_cons_if, lookup_cons_if, ih]
      by_cases hj : j = a
      · simp [hj,ha]
      · simp [hj]

theorem get?_erase (d : Dict K V) (k j : K) :
    (d.erase k).get? j = if j = k then none else d.get? j :=
  lookup_filter_ne k j d.entries

@[simp] theorem get?_erase_self (d : Dict K V) (k : K) : (d.erase k).get? k = none := by
  simp [get?_erase]

theorem get?_mapValues (f : K → V → W) (d : Dict K V) (k : K) :
    (d.mapValues f).get? k = (d.get? k).map (f k) := by
  obtain ⟨es,hes⟩ := d
  show (es.map (fun e => (e.1,f e.1 e.2))).lookup k = (es.lookup k).map (f k)
  clear hes
  induction es with
  | nil => rfl
  | cons e rest ih =>
    obtain ⟨a,b⟩ := e
    rw [List.map_cons, lookup_cons_if, lookup_cons_if, ih]
    by_cases hk : k = a <;> simp [hk]

theorem get?_setDefault (d : Dict K V) (k j : K) (v : V) :
    (d.setDefault k v).get? j = if j = k then some ((d.get? k).getD v) else d.get? j := by
  unfold setDefault
  cases h : d.get? k with
  | some w =>
    by_cases hj : j = k
    · simp [hj,h]
    · simp [hj]
  | none => simp [get?_set]

theorem mem_entries_iff (d : Dict K V) (k : K) (v : V) :
    (k,v) ∈ d.entries ↔ d.get? k = some v := by
  obtain ⟨es,hes⟩ := d
  show (k,v) ∈ es ↔ es.lookup k = some v
  induction es with
  | nil => simp
  | cons e rest ih =>
    obtain ⟨a,b⟩ := e
    simp only [List.map_cons, List.nodup_cons] at hes
    by_cases hk : k = a
    · subst hk
      constructor
      · intro h
        rcases List.mem_cons.mp h with h | h
        · cases h
          simp
        · exact absurd (List.mem_map.mpr ⟨_,h,rfl⟩) hes.1
      · intro h
        rw [lookup_cons_if, if_pos rfl, Option.some.injEq] at h
        simp [h]
    · rw [lookup_cons_if, if_neg hk, ← ih hes.2]
      simp [hk]

/-- Rewriting every value by itself changes nothing. -/
theorem mapValues_eq_self {d : Dict K V} {f : K → V → V}
    (h : ∀ k v, d.get? k = some v → f k v = v) : d.mapValues f = d := by
  refine ext_entries ((List.map_congr_left fun e he => ?_).trans (List.map_id _))
  have hget := (mem_entries_iff d e.1 e.2).mp he
  exact Prod.ext rfl (h e.1 e.2 hget)

theorem mem_keys_iff (d : Dict K V) (k : K) : k ∈ d.keys ↔ ∃ v, d.get? k = some v := by
  constructor
  · intro h
    obtain ⟨e,he,rfl⟩ := List.mem_map.mp h
    exact ⟨e.2,(d.mem_entries_iff e.1 e.2).mp he⟩
  · rintro ⟨v,hv⟩
    exact List.mem_map.mpr ⟨_,(d.mem_entries_iff k v).mpr hv,rfl⟩

theorem mem_values_iff (d : Dict K V) (v : V) : v ∈ d.values ↔ ∃ k, d.get? k = some v := by
  constructor
  · intro h
    obtain ⟨e,he,rfl⟩ := List.mem_map.mp h
    exact ⟨e.1,(d.mem_entries_iff e.1 e.2).mp he⟩
  · rintro ⟨k,hk⟩
    exact List.mem_map.mpr ⟨_,(d.mem_entries_iff k v).mpr hk,rfl⟩

theorem values_map_some (d : Dict K V) : d.values.map some = d.keys.map d.get? := by
  rw [values,keys,List.map_map,List.map_map]
  refine List.map_congr_left (fun e he => ?_)
  exact ((d.mem_entries_iff e.1 e.2).mp he).symm

/-- A table whose values name their keys. -/
theorem map_values_eq_keys {d : Dict K V} {name : V → K} (h : ∀ k v, d.get? k = some v → name v = k) :
    d.values.map name = d.keys := by
  rw [values,keys,List.map_map]
  refine List.map_congr_left (fun e he => ?_)
  exact h e.1 e.2 ((d.mem_entries_iff e.1 e.2).mp he)

/-- The values of a dictionary that has the same keys in the same order. -/
theorem values_eq_map {d : Dict K V} {e : Dict K W} {name : V → K} {f : K → V → W}
    (hname : ∀ k v, d.get? k = some v → name v = k) (hkeys : e.keys = d.keys)
    (hget : ∀ k, e.get? k = (d.get? k).map (f k)) :
    e.values = d.values.map (fun v => f (name v) v) := by
  refine (List.map_injective_iff.mpr fun _ _ h => Option.some.inj h) ?_
  calc e.values.map some = d.keys.map (fun k => (d.get? k).map (f k)) := by
        rw [values_map_some,hkeys]
        exact List.map_congr_left (fun k _ => hget k)
    _ = d.keys.map (fun k => (d.get? k).map (fun v => f (name v) v)) := by
        refine List.map_congr_left (fun k _ => Option.map_congr (fun v hv => ?_))
        rw [hname k v hv]
    _ = (d.values.map some).map (Option.map (fun v => f (name v) v)) := by
        rw [values_map_some,List.map_map]
        rfl
    _ = (d.values.map (fun v => f (name v) v)).map some := by
        rw [List.map_map,List.map_map]
        rfl

theorem set_entries_of_none {d : Dict K V} {k : K} (h : d.get? k = none) (v : V) :
    (d.set k v).entries = d.entries ++ [(k,v)] := by
  apply setEntries_of_notMem
  intro hk
  obtain ⟨w,hw⟩ := (d.mem_keys_iff k).mp hk
  rw [h] at hw
  cases hw

theorem keys_set_of_none {d : Dict K V} {k : K} (h : d.get? k = none) (v : V) :
    (d.set k v).keys = d.keys ++ [k] := by
  rw [keys,set_entries_of_none h,List.map_append]
  rfl

theorem keys_set_of_some {d : Dict K V} {k : K} {w : V} (h : d.get? k = some w) (v : V) :
    (d.set k v).keys = d.keys :=
  map_fst_setEntries_of_mem ((d.mem_keys_iff k).mpr ⟨w,h⟩)

theorem filter_setEntries (k : K) (v : V) (es : List (K × V)) :
    (setEntries k v es).filter (fun e => e.1 ≠ k) = es.filter (fun e => e.1 ≠ k) := by
  induction es with
  | nil => simp [setEntries]
  | cons e rest ih =>
    by_cases he : e.1 = k
    · simp [setEntries,he]
    · simpa [setEntries,he] using ih

theorem erase_of_none {d : Dict K V} {k : K} (h : d.get? k = none) : d.erase k = d := by
  apply ext_entries
  apply List.filter_eq_self.mpr
  intro e he
  have hk : e.1 ≠ k := by
    rintro rfl
    rw [(d.mem_entries_iff e.1 e.2).mp he] at h
    cases h
  simpa using hk

theorem perm_cons_filter {k : K} {v : V} {es : List (K × V)} (hes : (es.map Prod.fst).Nodup)
    (h : (k,v) ∈ es) : es.Perm ((k,v) :: es.filter (fun e => e.1 ≠ k)) := by
  induction es with
  | nil => simp at h
  | cons e rest ih =>
    simp only [List.map_cons, List.nodup_cons] at hes
    by_cases he : e.1 = k
    · have hkr : k ∉ rest.map Prod.fst := he ▸ hes.1
      have hv : e = (k,v) := by
        rcases List.mem_cons.mp h with h | h
        · exact h.symm
        · exact absurd (List.mem_map.mpr ⟨_,h,rfl⟩) hkr
      have hf : rest.filter (fun e => e.1 ≠ k) = rest := by
        apply List.filter_eq_self.mpr
        intro x hx
        have hxk : x.1 ≠ k := fun hxk => hkr (List.mem_map.mpr ⟨x,hx,hxk⟩)
        simpa using hxk
      rw [List.filter_cons_of_neg (by simpa using he), hf, hv]
    · have hr : (k,v) ∈ rest := by
        rcases List.mem_cons.mp h with h | h
        · exact absurd (congrArg Prod.fst h).symm he
        · exact h
      have hp := (ih hes.2 hr).cons e
      rw [List.filter_cons_of_pos (by simpa using he)]
      exact hp.trans (List.Perm.swap _ _ _)

/-- The entry of a present key can be brought to the front. -/
theorem entries_perm_of_some {d : Dict K V} {k : K} {v : V} (h : d.get? k = some v) :
    d.entries.Perm ((k,v) :: (d.erase k).entries) :=
  perm_cons_filter d.nodup_keys ((d.mem_entries_iff k v).mpr h)

theorem values_perm_of_some {d : Dict K V} {k : K} {v : V} (h : d.get? k = some v) :
    d.values.Perm (v :: (d.erase k).values) :=
  (entries_perm_of_some h).map Prod.snd

@[simp] theorem erase_set (d : Dict K V) (k : K) (v : V) : (d.set k v).erase k = d.erase k :=
  ext_entries (filter_setEntries k v d.entries)

/-- Storing at a present key replaces one value. -/
theorem countP_values_set {d : Dict K V} {k : K} {v : V} (h : d.get? k = some v) (w : V)
    (p : V → Bool) :
    (d.set k w).values.countP p + (if p v = true then 1 else 0) =
      d.values.countP p + (if p w = true then 1 else 0) := by
  have hset := values_perm_of_some (get?_set_self d k w)
  rw [erase_set] at hset
  rw [hset.countP_eq,(values_perm_of_some h).countP_eq,List.countP_cons,List.countP_cons]
  omega

theorem size_erase_of_some {d : Dict K V} {k : K} {v : V} (h : d.get? k = some v) :
    d.size = (d.erase k).size + 1 :=
  (entries_perm_of_some h).length_eq

theorem size_set_of_none {d : Dict K V} {k : K} (h : d.get? k = none) (v : V) :
    (d.set k v).size = d.size + 1 := by
  simp [size,set_entries_of_none h]

theorem size_set_of_some {d : Dict K V} {k : K} {w : V} (h : d.get? k = some w) (v : V) :
    (d.set k v).size = d.size := by
  have hk := congrArg List.length (keys_set_of_some h v)
  simpa [keys,size] using hk

theorem perm_values_of_get? {d e : Dict K V} (h : ∀ k, e.get? k = d.get? k) :
    e.values.Perm d.values := by
  apply List.Perm.map
  apply (List.perm_ext_iff_of_nodup (.of_map _ e.nodup_keys) (.of_map _ d.nodup_keys)).mpr
  rintro ⟨k,v⟩
  rw [mem_entries_iff,mem_entries_iff,h]

theorem size_of_get?_map {d e : Dict K V} {f : K → V → V}
    (h : ∀ k, e.get? k = (d.get? k).map (f k)) : e.size = d.size := by
  have hperm : e.values.Perm (d.mapValues f).values :=
    perm_values_of_get? fun k => (h k).trans (get?_mapValues f d k).symm
  have hlength := hperm.length_eq
  simpa only [size,values,mapValues,List.length_map] using hlength

theorem countP_values_added {d e : Dict K V} {k : K} {v : V} (hnone : d.get? k = none)
    (h : ∀ j, e.get? j = if j = k then some v else d.get? j) (p : V → Bool) :
    e.values.countP p = d.values.countP p + if p v = true then 1 else 0 := by
  have hperm : e.values.Perm (d.set k v).values :=
    perm_values_of_get? fun j => (h j).trans (get?_set d k j v).symm
  rw [hperm.countP_eq,values,set_entries_of_none hnone,List.map_append,List.countP_append]
  simp [values,List.countP_cons]

/-- How many keys of a table stand in a list of some of its keys. -/
theorem countP_keys_mem {d : Dict K V} {ids : List K} (hids : ids.Nodup)
    (hknown : ∀ k ∈ ids, ∃ v, d.get? k = some v) :
    d.entries.countP (fun x => x.1 ∈ ids) = ids.length := by
  have hkeys : d.entries.countP (fun x => x.1 ∈ ids) = (d.keys.filter (· ∈ ids)).length := by
    rw [← List.countP_eq_length_filter,keys,List.countP_map]
    rfl
  have hperm : (d.keys.filter (· ∈ ids)).Perm ids := by
    apply (List.perm_ext_iff_of_nodup (d.nodup_keys.filter _) hids).mpr
    intro k
    rw [List.mem_filter,decide_eq_true_iff,and_iff_right_iff_imp]
    exact fun hk => (d.mem_keys_iff k).mpr (hknown k hk)
  rw [hkeys,hperm.length_eq]

/-- The values at the keys in `ids`, which have no label, are given the label `l`. -/
theorem countP_values_labelled {L : Type*} [DecidableEq L] {d e : Dict K V} {f : K → V → V}
    (hget : ∀ k, e.get? k = (d.get? k).map (f k)) {label : V → Option L} {ids : List K} {l : L}
    (hids : ids.Nodup) (hknown : ∀ k ∈ ids, ∃ v, d.get? k = some v ∧ label v = none)
    (hmarks : ∀ k v, d.get? k = some v → k ∈ ids → label (f k v) = some l)
    (hkeeps : ∀ k v, d.get? k = some v → k ∉ ids → label (f k v) = label v) (name : L) :
    e.values.countP (fun v => label v = some name) =
      d.values.countP (fun v => label v = some name) + if name = l then ids.length else 0 := by
  have hperm : e.values.Perm (d.mapValues f).values :=
    perm_values_of_get? fun k => (hget k).trans (get?_mapValues f d k).symm
  have hmarked : ∀ x ∈ d.entries, x.1 ∈ ids → label x.2 = none := by
    intro x hx hid
    obtain ⟨v,hv,hnone⟩ := hknown x.1 hid
    rw [(d.mem_entries_iff x.1 x.2).mp hx,Option.some.injEq] at hv
    exact hv ▸ hnone
  have hentries : ∀ x ∈ d.entries,
      label (f x.1 x.2) = if x.1 ∈ ids then some l else label x.2 := by
    intro x hx
    have hx' := (d.mem_entries_iff x.1 x.2).mp hx
    split
    · next hid => exact hmarks _ _ hx' hid
    · next hid => exact hkeeps _ _ hx' hid
  rw [hperm.countP_eq,values,values,mapValues,List.map_map,List.countP_map,List.countP_map,
    ← countP_keys_mem hids fun k hk => (hknown k hk).imp fun _ h => h.1]
  clear hperm hget hknown hmarks hkeeps
  generalize d.entries = es at hmarked hentries ⊢
  induction es with
  | nil => simp
  | cons x rest ih =>
    have hx := hentries x List.mem_cons_self
    have htail := ih (fun y hy => hmarked y (List.mem_cons_of_mem _ hy))
      (fun y hy => hentries y (List.mem_cons_of_mem _ hy))
    simp only [List.countP_cons,Function.comp_apply] at htail ⊢
    rw [htail]
    simp only [hx]
    by_cases hid : x.1 ∈ ids
    · have hnone := hmarked x List.mem_cons_self hid
      by_cases hname : name = l
      · simp [hid,hnone,hname]
        omega
      · simp [hid,hnone,hname,Ne.symm hname]
    · simp [hid]
      omega

/-- Python's `==` on dictionaries: the same keys with the same values, in any order. -/
def sameItems [DecidableEq V] (d e : Dict K V) : Bool :=
  d.entries.all (fun x => e.get? x.1 == some x.2) && e.entries.all (fun x => d.get? x.1 == some x.2)

theorem sameItems_iff [DecidableEq V] (d e : Dict K V) :
    d.sameItems e = true ↔ ∀ k, d.get? k = e.get? k := by
  simp only [sameItems, Bool.and_eq_true, List.all_eq_true, beq_iff_eq]
  constructor
  · rintro ⟨hd,he⟩ k
    cases hk : d.get? k with
    | some v => exact (hd (k,v) ((d.mem_entries_iff k v).mpr hk)).symm
    | none =>
      cases hk' : e.get? k with
      | none => rfl
      | some v =>
        have h := he (k,v) ((e.mem_entries_iff k v).mpr hk')
        rw [hk] at h
        cases h
  · intro h
    refine ⟨?_,?_⟩
    · intro x hx
      rw [← h]
      exact (d.mem_entries_iff x.1 x.2).mp hx
    · intro x hx
      rw [h]
      exact (e.mem_entries_iff x.1 x.2).mp hx

end Dict
end CueBee
