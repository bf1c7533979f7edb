import LazyGraph.Text

/-!
Texts cut at a separator and put together again: the pieces hold no separator, and with one
between each two of them they are the text. Texts without separators are the pieces of the text
that they make up.
-/
namespace LazyGraph.Text

/-! ### Cutting what was put together -/

theorem pieces_append {sep : Char} {p : List Char} (h : sep ∉ p) (rest : List Char) :
    pieces sep (p ++ sep :: rest) = p :: pieces sep rest := by
  induction p with
  | nil => rw [List.nil_append, pieces, if_pos rfl]
  | cons c p ih =>
      have hc : c ≠ sep := fun e => h (e ▸ List.mem_cons_self)
      rw [List.cons_append, pieces, if_neg hc, ih fun hm => h (List.mem_cons_of_mem c hm)]

theorem pieces_of_not_mem {sep : Char} {p : List Char} (h : sep ∉ p) : pieces sep p = [p] := by
  induction p with
  | nil => rfl
  | cons c p ih =>
      have hc : c ≠ sep := fun e => h (e ▸ List.mem_cons_self)
      rw [pieces, if_neg hc, ih fun hm => h (List.mem_cons_of_mem c hm)]

/-- A dot stands before each segment but the first. -/
theorem toList_dotted (p : String) (parts : List String) :
    (dotted (p :: parts)).toList = p.toList ++ parts.flatMap ('.' :: ·.toList) := by
  have hdot : ".".toList = ['.'] := by decide
  rw [dotted, String.toList_intercalate, hdot]
  induction parts generalizing p with
  | nil => exact List.intercalate_singleton.trans (List.append_nil _).symm
  | cons q parts ih =>
      rw [List.map_cons, List.map_cons, List.intercalate_cons_cons, ← List.map_cons, ih,
        List.append_assoc]
      rfl

/-- Dots between texts without dots can be told from the texts. -/
theorem segments_dotted {parts : List String} (hn : parts ≠ [])
    (h : ∀ p ∈ parts, '.' ∉ p.toList) : segments (dotted parts) = parts := by
  obtain ⟨p, parts, rfl⟩ := List.exists_cons_of_ne_nil hn
  rw [segments, toList_dotted]
  clear hn
  induction parts generalizing p with
  | nil =>
      have hp := pieces_of_not_mem (h p List.mem_cons_self)
      rw [List.flatMap_nil, List.append_nil, hp, List.map_singleton, String.ofList_toList]
  | cons q parts ih =>
      rw [List.flatMap_cons, List.cons_append, pieces_append (h p List.mem_cons_self),
        List.map_cons, ih q fun x hx => h x (List.mem_cons_of_mem p hx), String.ofList_toList]

/-- Behind one first part, texts without dots can be told from the whole. -/
theorem dotted_cons_inj {p : String} {parts others : List String}
    (h : ∀ q ∈ parts, '.' ∉ q.toList) (h' : ∀ q ∈ others, '.' ∉ q.toList)
    (he : dotted (p :: parts) = dotted (p :: others)) : parts = others := by
  have hlists := congrArg String.toList he
  rw [toList_dotted, toList_dotted] at hlists
  have hbehind : dotted ("" :: parts) = dotted ("" :: others) := by
    apply String.toList_injective
    rw [toList_dotted, toList_dotted, List.append_cancel_left hlists]
  have hcut : ∀ {xs : List String}, (∀ q ∈ xs, '.' ∉ q.toList) →
      segments (dotted ("" :: xs)) = "" :: xs := fun hx =>
    segments_dotted (List.cons_ne_nil _ _) (List.forall_mem_cons.mpr ⟨List.not_mem_nil, hx⟩)
  have hsegments := (hcut h).symm.trans ((congrArg segments hbehind).trans (hcut h'))
  exact (List.cons.inj hsegments).2

/-! ### Putting together what was cut -/

/-- The first piece, and the others behind one separator each, are the text. -/
theorem pieces_eq_cons (sep : Char) (cs : List Char) :
    ∃ p ps, pieces sep cs = p :: ps ∧ cs = p ++ ps.flatMap (sep :: ·) ∧
      sep ∉ p ∧ ∀ q ∈ ps, sep ∉ q := by
  induction cs with
  | nil => exact ⟨[], [], rfl, rfl, List.not_mem_nil, fun q hq => absurd hq List.not_mem_nil⟩
  | cons c cs ih =>
      obtain ⟨p, ps, hpieces, hcs, hp, hps⟩ := ih
      by_cases hc : c = sep
      · refine ⟨[], p :: ps, ?_, ?_, List.not_mem_nil, List.forall_mem_cons.mpr ⟨hp, hps⟩⟩
        · rw [pieces, if_pos hc, hpieces]
        · rw [hc, hcs]
          rfl
      · refine ⟨c :: p, ps, ?_, by rw [hcs]; rfl, ?_, hps⟩
        · rw [pieces, if_neg hc, hpieces]
        · intro hm
          exact (List.mem_cons.mp hm).elim (fun e => hc e.symm) hp

/-- A text is its segments with dots between them, and the segments hold none. -/
theorem segments_eq_cons (s : String) :
    ∃ p parts, segments s = p :: parts ∧ dotted (p :: parts) = s ∧
      ∀ q ∈ p :: parts, '.' ∉ q.toList := by
  obtain ⟨p, ps, hpieces, hs, hp, hps⟩ := pieces_eq_cons '.' s.toList
  refine ⟨String.ofList p, ps.map String.ofList, ?_, ?_, ?_⟩
  · rw [segments, hpieces, List.map_cons]
  · apply String.toList_injective
    rw [toList_dotted, hs, String.toList_ofList, List.flatMap_map]
    simp only [String.toList_ofList]
  · refine List.forall_mem_cons.mpr ⟨by rwa [String.toList_ofList], ?_⟩
    intro q hq
    obtain ⟨cs, hcs, rfl⟩ := List.mem_map.mp hq
    rw [String.toList_ofList]
    exact hps cs hcs

end LazyGraph.Text
