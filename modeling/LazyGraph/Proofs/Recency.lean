import Mathlib.Data.List.Basic
import LazyGraph.Recency

/-!
Lists ordered by use: which entries each operation leaves, that it leaves one a key, and that the
entries stand in the order of their last use.
-/
namespace LazyGraph.Recency

variable {κ α : Type}

def keys (l : Recency κ α) : List κ := l.map (·.1)

theorem mem_keys_of_mem {l : Recency κ α} {p : κ × α} (h : p ∈ l) : p.1 ∈ keys l :=
  List.mem_map_of_mem h

variable [DecidableEq κ]

/-! ### Entries -/

theorem peek?_cons (p : κ × α) (l : Recency κ α) (key : κ) :
    peek? (p :: l) key = if p.1 = key then some p.2 else peek? l key := by
  obtain ⟨k, v⟩ := p
  rw [peek?, List.lookup_cons]
  by_cases hk : k = key
  · simp [hk]
  · rw [beq_eq_false_iff_ne.mpr (Ne.symm hk), if_neg hk]
    rfl

theorem mem_of_peek? {l : Recency κ α} {key : κ} {v : α} (h : peek? l key = some v) :
    (key, v) ∈ l := by
  induction l with
  | nil => cases h
  | cons p l ih =>
      rw [peek?_cons] at h
      split at h
      · rename_i hk
        cases h
        exact hk ▸ List.mem_cons_self
      · exact List.mem_cons_of_mem p (ih h)

theorem peek?_of_mem {l : Recency κ α} (hn : (keys l).Nodup) {key : κ} {v : α}
    (h : (key, v) ∈ l) : peek? l key = some v := by
  induction l with
  | nil => cases h
  | cons p l ih =>
      obtain ⟨hp, hn⟩ := List.nodup_cons.mp hn
      rw [peek?_cons]
      rcases List.mem_cons.mp h with rfl | h
      · exact if_pos rfl
      · rw [if_neg]
        · exact ih hn h
        · rintro rfl
          exact hp (mem_keys_of_mem (p := (p.1, v)) h)

theorem mem_erase {l : Recency κ α} {key : κ} {p : κ × α} :
    p ∈ erase l key ↔ p ∈ l ∧ p.1 ≠ key := by
  simp [erase]

theorem mem_put {l : Recency κ α} {key : κ} {v : α} {p : κ × α} :
    p ∈ put l key v ↔ p = (key, v) ∨ (p ∈ l ∧ p.1 ≠ key) := by
  rw [put, List.mem_cons, mem_erase]

theorem mem_of_mem_touch {l : Recency κ α} {key : κ} {p : κ × α} (h : p ∈ touch l key) :
    p ∈ l := by
  rw [touch] at h
  split at h
  · rename_i v hv
    rcases mem_put.mp h with rfl | ⟨hp, _⟩
    · exact mem_of_peek? hv
    · exact hp
  · exact h

theorem mem_of_mem_update {l : Recency κ α} {key : κ} {f : α → α} {p : κ × α}
    (h : p ∈ update l key f) : p ∈ l ∨ ∃ v, (key, v) ∈ l ∧ p = (key, f v) := by
  obtain ⟨q, hq, rfl⟩ := List.mem_map.mp h
  split
  · rename_i hk
    exact .inr ⟨q.2, hk ▸ hq, by rw [hk]⟩
  · exact .inl hq

/-! ### The entry of a key after a change -/

theorem peek?_erase (l : Recency κ α) (key other : κ) :
    peek? (erase l key) other = if other = key then none else peek? l other := by
  induction l with
  | nil =>
      split <;> rfl
  | cons p l ih =>
      rw [erase] at ih ⊢
      by_cases hp : p.1 = key
      · rw [List.filter_cons_of_neg (by simpa using hp), ih, peek?_cons]
        split
        · rfl
        · rename_i hne
          rw [if_neg fun e => hne (e.symm.trans hp)]
      · rw [List.filter_cons_of_pos (by simpa using hp), peek?_cons, peek?_cons, ih]
        by_cases ho : p.1 = other
        · rw [if_pos ho, if_pos ho, if_neg (ho ▸ hp)]
        · rw [if_neg ho, if_neg ho]

theorem peek?_put (l : Recency κ α) (key other : κ) (v : α) :
    peek? (put l key v) other = if other = key then some v else peek? l other := by
  rw [put, peek?_cons, peek?_erase]
  by_cases h : other = key
  · rw [if_pos h.symm, if_pos h]
  · rw [if_neg (Ne.symm h), if_neg h, if_neg h]

theorem peek?_touch (l : Recency κ α) (key other : κ) :
    peek? (touch l key) other = peek? l other := by
  rw [touch]
  split
  · rename_i v hv
    rw [peek?_put]
    split
    · rename_i h
      rw [h, hv]
    · rfl
  · rfl

theorem peek?_update (l : Recency κ α) (key other : κ) (f : α → α) :
    peek? (update l key f) other =
      if other = key then (peek? l other).map f else peek? l other := by
  induction l with
  | nil =>
      split <;> rfl
  | cons p l ih =>
      rw [update, List.map_cons, ← update, peek?_cons, peek?_cons, ih]
      by_cases hp : p.1 = key
      · by_cases ho : p.1 = other
        · rw [if_pos hp, if_pos ho, if_pos ho, if_pos (ho.symm.trans hp)]
          rfl
        · rw [if_pos hp, if_neg ho, if_neg ho]
      · by_cases ho : p.1 = other
        · rw [if_neg hp, if_pos ho, if_pos ho, if_neg (ho ▸ hp)]
        · rw [if_neg hp, if_neg ho, if_neg ho]

/-! ### Keys -/

theorem keys_update (l : Recency κ α) (key : κ) (f : α → α) : keys (update l key f) = keys l := by
  rw [keys, keys, update, List.map_map]
  refine List.map_congr_left fun p _ => ?_
  simp only [Function.comp_apply]
  split <;> rfl

theorem nodup_keys_erase {l : Recency κ α} (h : (keys l).Nodup) (key : κ) :
    (keys (erase l key)).Nodup :=
  h.sublist (List.filter_sublist.map _)

theorem nodup_keys_put {l : Recency κ α} (h : (keys l).Nodup) (key : κ) (v : α) :
    (keys (put l key v)).Nodup := by
  refine List.nodup_cons.mpr ⟨fun hm => ?_, nodup_keys_erase h key⟩
  obtain ⟨p, hp, e⟩ := List.mem_map.mp hm
  exact (mem_erase.mp hp).2 e

theorem nodup_keys_touch {l : Recency κ α} (h : (keys l).Nodup) (key : κ) :
    (keys (touch l key)).Nodup := by
  rw [touch]
  split
  · exact nodup_keys_put h key _
  · exact h

theorem erase_append_cons {before after : Recency κ α} {key : κ} {v : α}
    (h : (keys (before ++ (key, v) :: after)).Nodup) :
    erase (before ++ (key, v) :: after) key = before ++ after := by
  have hsplit : (keys before ++ key :: keys after).Nodup := by
    simpa [keys] using h
  obtain ⟨_, hafter, hapart⟩ := List.nodup_append.mp hsplit
  have hbefore : erase before key = before := by
    apply List.filter_eq_self.mpr
    intro p hp
    simpa using hapart p.1 (mem_keys_of_mem hp) key List.mem_cons_self
  have hbehind : erase after key = after := by
    apply List.filter_eq_self.mpr
    rintro p hp
    have hne : p.1 ≠ key := fun e => (List.nodup_cons.mp hafter).1 (e ▸ mem_keys_of_mem hp)
    simpa using hne
  rw [erase] at hbefore hbehind ⊢
  rw [List.filter_append, List.filter_cons_of_neg (by simp), hbefore, hbehind]

/-- A key that is used again takes no more room. -/
theorem length_touch_le (l : Recency κ α) (key : κ) : (touch l key).length ≤ l.length := by
  rw [touch]
  split
  · rename_i v hv
    refine List.length_filter_lt_length_iff_exists.mpr ⟨(key, v), mem_of_peek? hv, ?_⟩
    simp
  · exact Nat.le_refl _

/-! ### Entries put one after the other -/

def putAll (entries : List (κ × α)) (l : Recency κ α) : Recency κ α :=
  entries.foldl (fun l p => put l p.1 p.2) l

theorem filter_erase (l : Recency κ α) (key : κ) (entries : List (κ × α)) :
    (erase l key).filter (·.1 ∉ keys entries) = l.filter fun p => p.1 ∉ key :: keys entries := by
  rw [erase, List.filter_filter]
  refine List.filter_congr fun p _ => ?_
  simp [Bool.and_comm]

/-- What is put does not depend on what was there, of which the other keys are left behind it. -/
theorem putAll_eq (entries : List (κ × α)) (l : Recency κ α) :
    putAll entries l = putAll entries [] ++ l.filter (·.1 ∉ keys entries) := by
  induction entries generalizing l with
  | nil => exact (List.filter_eq_self.mpr fun p _ => by simp [keys]).symm
  | cons p entries ih =>
      have hstep : ∀ l, putAll (p :: entries) l = putAll entries (put l p.1 p.2) := fun _ => rfl
      have hput : ∀ l : Recency κ α, (put l p.1 p.2).filter (·.1 ∉ keys entries) =
          [p].filter (·.1 ∉ keys entries) ++ l.filter (·.1 ∉ keys (p :: entries)) := by
        intro l
        rw [put, ← List.singleton_append, List.filter_append, filter_erase]
        rfl
      rw [hstep, hstep, ih, ih (put [] p.1 p.2), hput, hput]
      simp

theorem mem_of_mem_putAll {entries : List (κ × α)} {p : κ × α} (h : p ∈ putAll entries []) :
    p ∈ entries := by
  induction entries with
  | nil => exact h
  | cons q entries ih =>
      have hstep : putAll (q :: entries) [] = putAll entries [q] := rfl
      rw [hstep, putAll_eq, List.mem_append, List.mem_filter, List.mem_singleton] at h
      rcases h with h | ⟨rfl, _⟩
      · exact List.mem_cons_of_mem q (ih h)
      · exact List.mem_cons_self

theorem mem_keys_of_mem_putAll {entries : List (κ × α)} {p : κ × α} (h : p ∈ putAll entries []) :
    p.1 ∈ keys entries :=
  List.mem_map_of_mem (mem_of_mem_putAll h)

theorem nodup_keys_putAll {l : Recency κ α} (h : (keys l).Nodup) (entries : List (κ × α)) :
    (keys (putAll entries l)).Nodup := by
  induction entries generalizing l with
  | nil => exact h
  | cons p entries ih => exact ih (nodup_keys_put h p.1 p.2)

/-- Entries that are put once more, after some were dropped, come to stand as before. -/
theorem putAll_again (entries : List (κ × α)) (l : Recency κ α) (q : κ × α → Bool) :
    (putAll entries ((putAll entries l).filter q)).filter q = (putAll entries l).filter q := by
  have hown : ((putAll entries []).filter q).filter (·.1 ∉ keys entries) = [] := by
    rw [List.filter_eq_nil_iff]
    intro p hp
    simpa using mem_keys_of_mem_putAll (List.mem_filter.mp hp).1
  rw [putAll_eq entries (List.filter q _), putAll_eq entries l]
  simp only [List.filter_append, hown, List.nil_append, List.filter_filter]
  refine congrArg _ (List.filter_congr fun p _ => ?_)
  cases q p <;> simp

/-! ### The order of use -/

/-- The keys are in a log of uses, the latest use first, and stand in the order of their last
uses. -/
structure InUseOrder (log : List κ) (l : Recency κ α) : Prop where
  mem : ∀ p ∈ l, p.1 ∈ log
  order : l.Pairwise fun p q => log.idxOf p.1 < log.idxOf q.1

namespace InUseOrder

variable {log : List κ} {l : Recency κ α}

theorem nil (log : List κ) : InUseOrder log ([] : Recency κ α) :=
  ⟨fun _ h => absurd h List.not_mem_nil, List.Pairwise.nil⟩

theorem sublist (h : InUseOrder log l) {r : Recency κ α} (hr : r.Sublist l) : InUseOrder log r :=
  ⟨fun p hp => h.mem p (hr.subset hp), h.order.sublist hr⟩

/-- The use of a key that is not there. -/
theorem unused (h : InUseOrder log l) {key : κ} (hk : ∀ p ∈ l, p.1 ≠ key) :
    InUseOrder (key :: log) l := by
  have hlater : ∀ p ∈ l, (key :: log).idxOf p.1 = log.idxOf p.1 + 1 := by
    intro p hp
    exact List.idxOf_cons_ne log (hk p hp).symm
  constructor
  · intro p hp
    exact List.mem_cons_of_mem key (h.mem p hp)
  · apply h.order.imp_of_mem
    intro p q hp hq hpq
    rw [hlater p hp, hlater q hq]
    omega

theorem put (h : InUseOrder log l) (key : κ) (v : α) : InUseOrder (key :: log) (put l key v) := by
  have hothers : ∀ p ∈ erase l key, p.1 ≠ key := fun p hp => (mem_erase.mp hp).2
  have hrest := (h.sublist (List.filter_sublist : (erase l key).Sublist l)).unused hothers
  constructor
  · intro p hp
    rcases List.mem_cons.mp hp with rfl | hp
    · exact List.mem_cons_self
    · exact hrest.mem p hp
  · refine List.pairwise_cons.mpr ⟨fun p hp => ?_, hrest.order⟩
    rw [List.idxOf_cons_self, List.idxOf_cons_ne log (hothers p hp).symm]
    exact Nat.succ_pos _

theorem touch (h : InUseOrder log l) (key : κ) : InUseOrder (key :: log) (touch l key) := by
  unfold Recency.touch
  split
  · exact h.put key _
  · rename_i hnone
    apply h.unused
    intro p hp
    have hne := List.lookup_eq_none_iff.mp hnone p hp
    exact Ne.symm (by simpa using hne)

theorem update (h : InUseOrder log l) (key : κ) (f : α → α) :
    InUseOrder log (update l key f) := by
  have hkey : ∀ p : κ × α, (if p.1 = key then (p.1, f p.2) else p).1 = p.1 := by
    intro p
    split <;> rfl
  constructor
  · intro p hp
    obtain ⟨q, hq, rfl⟩ := List.mem_map.mp hp
    rw [hkey]
    exact h.mem q hq
  · apply List.Pairwise.map _ _ h.order
    intro p q hpq
    rwa [hkey, hkey]

theorem putAll (h : InUseOrder log l) (entries : List (κ × α)) :
    InUseOrder ((keys entries).reverse ++ log) (putAll entries l) := by
  induction entries generalizing log l with
  | nil => exact h
  | cons p entries ih =>
      have hlog : (keys (p :: entries)).reverse ++ log =
          (keys entries).reverse ++ p.1 :: log := by
        simp [keys]
      rw [hlog]
      exact ih (h.put p.1 p.2)

end InUseOrder
end LazyGraph.Recency
