import LazyGraph.Proofs.Document.Response
import Mathlib.Data.List.Perm.Basic

/-!
Compilation depends on the set of the selections alone. Their order and their number do not matter,
since they are arranged first, and neither does what a builder has compiled before: the ids of
arranged selections tell the selections, whose documents are then remembered or compiled.
-/
namespace LazyGraph

namespace Selection

/-- Selections of one tree for each operation, whose labels have no dots. -/
structure Dotless (ss : List Selection) : Prop where
  operation : ∀ s ∈ ss, s.operation? ≠ none
  tree : ∀ s ∈ ss, ∀ t ∈ ss, s.operation? = t.operation? → s.rootNode.id = t.rootNode.id
  undotted : ∀ s ∈ ss, ∀ n ∈ s.ancestry, '.' ∉ n.label.toList

theorem Dotless.mono {ss ts : List Selection} (h : Dotless ss) (hs : ts ⊆ ss) : Dotless ts where
  operation s hm := h.operation s (hs hm)
  tree s hm t ht := h.tree s (hs hm) t (hs ht)
  undotted s hm := h.undotted s (hs hm)

end Selection

namespace Document

open Selection (Dotless)
open Selection.Forest (Sound)

/-! ### The arranged list -/

/-- Of alike items that stand together one stays, so an ascending list becomes strictly so. -/
theorem pairwise_lt_eraseRepsBy {α : Type} (key : α → String) {l : List α}
    (h : l.Pairwise fun x y => key x ≤ key y) :
    (l.eraseRepsBy fun x y => key x == key y).Pairwise fun x y => key x < key y := by
  have hloop : ∀ (rest : List α) (x : α) (kept : List α),
      (x :: rest).Pairwise (fun y z => key y ≤ key z) →
      kept.Pairwise (fun y z => key z < key y) → (∀ y ∈ kept, key y < key x) →
      (List.eraseRepsBy.loop (fun y z => key y == key z) x rest kept).Pairwise
        fun y z => key y < key z := by
    intro rest
    induction rest with
    | nil =>
        intro x kept _ hkept hbelow
        simp only [List.eraseRepsBy.loop, List.pairwise_reverse]
        exact List.pairwise_cons.mpr ⟨hbelow, hkept⟩
    | cons z rest ih =>
        intro x kept hsorted hkept hbelow
        obtain ⟨hfirst, htail⟩ := List.pairwise_cons.mp hsorted
        rw [List.eraseRepsBy.loop]
        by_cases hxz : key x = key z
        · simp only [hxz, beq_self_eq_true]
          apply ih x kept _ hkept hbelow
          apply List.pairwise_cons.mpr
          exact ⟨fun y hy => hfirst y (List.mem_cons_of_mem z hy), (List.pairwise_cons.mp htail).2⟩
        · simp only [beq_eq_false_iff_ne.mpr hxz]
          have hlt : key x < key z := by
            by_contra hnot
            exact hxz (String.le_antisymm (hfirst z List.mem_cons_self) (String.not_lt.mp hnot))
          apply ih z (x :: kept) htail (List.pairwise_cons.mpr ⟨hbelow, hkept⟩)
          intro y hy
          rcases List.mem_cons.mp hy with rfl | hy
          · exact hlt
          · exact String.lt_trans (hbelow y hy) hlt
  cases l with
  | nil => exact List.Pairwise.nil
  | cons x rest => exact hloop rest x [] h List.Pairwise.nil (fun y hy => absurd hy List.not_mem_nil)

theorem pairwise_arrange (ss : List Selection) :
    (arrange ss).Pairwise fun s t => s.signature < t.signature := by
  apply pairwise_lt_eraseRepsBy Selection.signature
  have hsorted : (ss.mergeSort fun s t => decide (s.signature ≤ t.signature)).Pairwise
      fun s t => decide (s.signature ≤ t.signature) = true := by
    apply List.pairwise_mergeSort
    · simpa using fun _ _ _ => String.le_trans
    · simpa using fun _ _ => String.le_total _ _
  exact hsorted.imp of_decide_eq_true

section

variable {f : Selection.Forest} {roots ss ts : List Selection}

/-- Lists of the same selections are arranged to one list. -/
theorem arrange_eq_of_mem_iff (hf : f.Sound roots) (hss : ss ⊆ f.handed roots) (hd : Dotless ss)
    (hsame : ∀ s, s ∈ ts ↔ s ∈ ss) : arrange ts = arrange ss := by
  have hts : ts ⊆ ss := fun s hs => (hsame s).mp hs
  have hd' := hd.mono hts
  have hnodup : ∀ us : List Selection, (arrange us).Nodup := by
    intro us
    apply (pairwise_arrange us).imp
    intro s t hlt he
    exact absurd (he ▸ hlt) (String.lt_irrefl _)
  have hmem : ∀ s, s ∈ arrange ts ↔ s ∈ arrange ss := by
    intro s
    rw [Sound.mem_arrange_of_undotted hf hss hd.tree hd.undotted, ← hsame s]
    exact Sound.mem_arrange_of_undotted hf (List.Subset.trans hts hss) hd'.tree hd'.undotted
  apply List.Perm.eq_of_pairwise _ (pairwise_arrange ts) (pairwise_arrange ss)
    ((List.perm_ext_iff_of_nodup (hnodup ts) (hnodup ss)).mpr hmem)
  intro s t _ _ hst hts
  exact absurd (String.lt_trans hst hts) (String.lt_irrefl _)

/-- Selections of operations compile. -/
theorem exists_ofArranged (h : ∀ s ∈ ss, s.operation? ≠ none) (operationName : Option String) :
    ∃ documents, ofArranged ss operationName = .ok documents := by
  have hroute : ∀ s ∈ ss, ∃ r, route? s = .ok r ∧ True := by
    intro s hs
    obtain ⟨operation, hoperation⟩ := Option.ne_none_iff_exists'.mp (h s hs)
    simp only [route?, hoperation]
    split <;> exact ⟨_, rfl, trivial⟩
  obtain ⟨rs, hrs, _⟩ := mapM_ok hroute
  rw [ofArranged, hrs]
  exact ⟨_, rfl⟩

end

/-! ### What is remembered -/

namespace Builder

/-- The builder after a number of builds. -/
def afterBuilds (b : Builder) (calls : List (List Selection × Option String)) : Builder :=
  calls.foldl (fun b call => (b.build call.1 call.2).2) b

/-- Each entry is what compilation gives for the selections of its ids under its name. -/
def Faithful (handed : List Selection) (b : Builder) : Prop :=
  ∀ q ∈ b.memo, ∃ ss ⊆ handed, ∃ operationName, operationName ≠ some "" ∧
    q.1 = (operationName.getD "", ss.map (·.id)) ∧ ofArranged ss operationName = .ok q.2

variable {handed ss : List Selection} {b : Builder} {operationName : Option String}

theorem faithful_new (capacity : Nat) : (new capacity).Faithful handed :=
  fun _ h => absurd h List.not_mem_nil

/-- A hit keeps the entries, and a miss adds one that was just compiled. -/
theorem Faithful.build (h : b.Faithful handed) (hss : ss ⊆ handed)
    (hname : operationName ≠ some "") : (b.build ss operationName).2.Faithful handed := by
  rw [Builder.build]
  split
  · intro q hq
    exact h q (Recency.mem_of_mem_touch hq)
  · split
    · rename_i documents hdocuments
      intro q hq
      rcases Recency.mem_put.mp (List.mem_of_mem_take hq) with rfl | ⟨hq, _⟩
      · exact ⟨arrange ss, fun s hs => hss (mem_of_mem_arrange hs), operationName, hname, rfl,
          hdocuments⟩
      · exact h q hq
    · exact h

theorem Faithful.afterBuilds (h : b.Faithful handed)
    {calls : List (List Selection × Option String)}
    (hcalls : ∀ call ∈ calls, call.1 ⊆ handed ∧ call.2 ≠ some "") :
    (b.afterBuilds calls).Faithful handed := by
  induction calls generalizing b with
  | nil => exact h
  | cons call calls ih =>
      obtain ⟨⟨hknown, hname⟩, hrest⟩ := List.forall_mem_cons.mp hcalls
      exact ih (h.build hknown hname) hrest

/-- Without the empty one, names differ in their texts. -/
theorem eq_of_getD_eq {name other : Option String} (hn : name ≠ some "") (ho : other ≠ some "")
    (he : name.getD "" = other.getD "") : name = other := by
  cases name with
  | none =>
      cases other with
      | none => rfl
      | some o => exact absurd (congrArg some he.symm) ho
  | some n =>
      cases other with
      | none => exact absurd (congrArg some he) hn
      | some o => exact congrArg some he

/-- A builder returns what compilation gives under this operation name. -/
theorem Faithful.build_eq (h : b.Faithful handed) (hids : (handed.map (·.id)).Nodup)
    (hss : ss ⊆ handed) (hname : operationName ≠ some "") :
    (b.build ss operationName).1 = ofArranged (arrange ss) operationName := by
  rw [Builder.build]
  split
  · rename_i documents hmemo
    obtain ⟨ts, hts, other, hother, hkey, hdocuments⟩ := h _ (Recency.mem_of_peek? hmemo)
    obtain ⟨hnames, hidsEq⟩ := Prod.mk.inj hkey
    have harranged : arrange ss ⊆ handed := fun s hs => hss (mem_of_mem_arrange hs)
    rw [eq_of_ids hids harranged hts hidsEq, eq_of_getD_eq hname hother hnames, hdocuments]
  · split
    · rename_i hdocuments
      exact hdocuments.symm
    · rename_i herror
      exact herror.symm

/-- After any builds a builder of any capacity gives for the same selections, in any order and
number, the documents that a new one gives. -/
theorem build_transparent {f : Selection.Forest} {roots ss ts : List Selection}
    (hf : f.Grown roots) {calls : List (List Selection × Option String)}
    (hcalls : ∀ call ∈ calls, call.1 ⊆ f.handed roots ∧ call.2 ≠ some "")
    (hss : ss ⊆ f.handed roots) (hd : Dotless ss) (hsame : ∀ s, s ∈ ts ↔ s ∈ ss)
    {operationName : Option String} (hname : operationName ≠ some "") (capacity other : Nat) :
    ∃ documents, ((new other).build ss operationName).1 = .ok documents ∧
      (((new capacity).afterBuilds calls).build ts operationName).1 = .ok documents := by
  have hids := hf.sound.ids
  have hts : ts ⊆ f.handed roots := fun s hs => hss ((hsame s).mp hs)
  have hcompiled : ∀ s ∈ arrange ss, s.operation? ≠ none :=
    fun s hs => hd.operation s (mem_of_mem_arrange hs)
  obtain ⟨documents, hdocuments⟩ := exists_ofArranged hcompiled operationName
  refine ⟨documents, ?_, ?_⟩
  · rw [(faithful_new other).build_eq hids hss hname, hdocuments]
  · have hused := (faithful_new capacity).afterBuilds hcalls
    rw [hused.build_eq hids hts hname, arrange_eq_of_mem_iff hf.sound hss hd hsame, hdocuments]

end Builder

namespace Shelf

/-- A builder of capacity one that compiled the title, and then all three under a name, gives for
all three in another order, one of them twice, what a new one gives. -/
theorem build_transparent_chosen :
    (added.2.Grown roots ∧
      (∀ call ∈ [([title.1], none), (chosen, some "Shelf")],
        call.1 ⊆ added.2.handed roots ∧ call.2 ≠ some "") ∧
      chosen ⊆ added.2.handed roots ∧ Selection.Dotless chosen ∧
      ∀ s, s ∈ [title.1, price.1, added.1, title.1] ↔ s ∈ chosen) ∧
    ∃ documents, ((Builder.new 8).build chosen none).1 = .ok documents ∧
      (((Builder.new 1).afterBuilds [([title.1], none), (chosen, some "Shelf")]).build
        [title.1, price.1, added.1, title.1] none).1 = .ok documents := by
  have hknown := grown.2
  have htitle : [title.1] ⊆ chosen := by simp [chosen]
  have hcalls : ∀ call ∈ [([title.1], none), (chosen, some "Shelf")],
      call.1 ⊆ added.2.handed roots ∧ call.2 ≠ some "" := by
    refine List.forall_mem_cons.mpr ⟨⟨List.Subset.trans htitle hknown, by decide⟩, ?_⟩
    exact List.forall_mem_singleton.mpr ⟨hknown, by decide⟩
  have hdotless : Selection.Dotless chosen :=
    ⟨by decide +kernel, by decide +kernel, by decide +kernel⟩
  have hsame : ∀ s, s ∈ [title.1, price.1, added.1, title.1] ↔ s ∈ chosen := by
    intro s
    simp only [chosen, List.mem_cons, List.not_mem_nil, or_false]
    tauto
  exact ⟨⟨grown.1, hcalls, hknown, hdotless, hsame⟩,
    Builder.build_transparent grown.1 hcalls hknown hdotless hsame (by decide) 1 8⟩

end Shelf

end Document
end LazyGraph
