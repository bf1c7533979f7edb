import LazyGraph.Proofs.Json.Removal
import LazyGraph.Settings.Reader

/-!
Layers of settings. Merging does not depend on how layers are grouped, and the default settings
change nothing, wherever they stand among the layers.
-/
namespace LazyGraph

namespace Settings

/-- The headers are a table. -/
structure Proper (s : Settings) : Prop where
  headers : Fields.Ascending s.transport.headers

/-! ### Single settings -/

section Pick

variable {α : Type} [DecidableEq α] (unset a b c : α)

theorem pick_unset_left : pick unset unset b = b := by
  rw [pick]
  split
  · rename_i h
    exact h.symm
  · rfl

theorem pick_unset_right : pick unset a unset = a := if_pos rfl

theorem pick_assoc : pick unset (pick unset a b) c = pick unset a (pick unset b c) := by
  by_cases hc : c = unset
  · rw [hc, pick_unset_right, pick_unset_right]
  · have hlater : ∀ x, pick unset x c = c := fun x => if_neg hc
    rw [hlater, hlater, hlater]

end Pick

/-! ### Sections -/

theorem mergeCache_assoc (a b c : CacheSettings) :
    mergeCache (mergeCache a b) c = mergeCache a (mergeCache b c) := by
  simp only [mergeCache, pick_assoc, Bool.or_assoc, Bool.and_assoc]

theorem mergeCache_unset_left (s : CacheSettings) : mergeCache {} s = s := by
  simp only [mergeCache, pick_unset_left, Bool.false_or, Bool.true_and]

theorem mergeCache_unset_right (s : CacheSettings) : mergeCache s {} = s := by
  simp only [mergeCache, pick_unset_right, Bool.or_false, Bool.and_true]

theorem mergeSelection_assoc (a b c : SelectionSettings) :
    mergeSelection (mergeSelection a b) c = mergeSelection a (mergeSelection b c) := by
  simp only [mergeSelection, pick_assoc]

theorem mergeSelection_unset_left (s : SelectionSettings) : mergeSelection {} s = s := by
  simp only [mergeSelection, pick_unset_left]

theorem mergeSelection_unset_right (s : SelectionSettings) : mergeSelection s {} = s := by
  simp only [mergeSelection, pick_unset_right]

theorem mergeTransport_assoc {a b c : TransportSettings} (ha : Fields.Ascending a.headers)
    (hb : Fields.Ascending b.headers) (hc : Fields.Ascending c.headers) :
    mergeTransport (mergeTransport a b) c = mergeTransport a (mergeTransport b c) := by
  simp only [mergeTransport, pick_assoc, Option.or_assoc, Fields.overlay_assoc ha hb hc]

theorem mergeTransport_unset_left {s : TransportSettings} (h : Fields.Ascending s.headers) :
    mergeTransport {} s = s := by
  have hheaders : Fields.overlay [] s.headers = s.headers := h.ofList_eq
  simp only [mergeTransport, pick_unset_left, Option.or_none, hheaders]

theorem mergeTransport_unset_right (s : TransportSettings) : mergeTransport s {} = s := by
  simp only [mergeTransport, pick_unset_right, Option.none_or]
  rfl

theorem mergeLogging_assoc (a b c : LoggingSettings) :
    mergeLogging (mergeLogging a b) c = mergeLogging a (mergeLogging b c) := by
  simp only [mergeLogging, pick_assoc, Option.or_assoc]

theorem mergeLogging_unset_left (s : LoggingSettings) : mergeLogging {} s = s := by
  simp only [mergeLogging, pick_unset_left, Option.or_none]

theorem mergeLogging_unset_right (s : LoggingSettings) : mergeLogging s {} = s := by
  simp only [mergeLogging, pick_unset_right, Option.none_or]

/-! ### All settings -/

variable {a b c : Settings}

theorem Proper.unset : Proper {} := ⟨.nil⟩

theorem Proper.merge (ha : a.Proper) (b : Settings) : (merge a b).Proper :=
  ⟨ha.headers.overlay b.transport.headers⟩

theorem merge_assoc (ha : a.Proper) (hb : b.Proper) (hc : c.Proper) :
    merge (merge a b) c = merge a (merge b c) := by
  simp only [merge, mergeCache_assoc, pick_assoc, mergeSelection_assoc, mergeLogging_assoc,
    mergeTransport_assoc ha.headers hb.headers hc.headers]

theorem merge_unset_left (ha : a.Proper) : merge {} a = a := by
  simp only [merge, mergeCache_unset_left, pick_unset_left, mergeSelection_unset_left,
    mergeTransport_unset_left ha.headers, mergeLogging_unset_left]

theorem merge_unset_right (a : Settings) : merge a {} = a := by
  simp only [merge, mergeCache_unset_right, pick_unset_right, mergeSelection_unset_right,
    mergeTransport_unset_right, mergeLogging_unset_right]

/-! ### Settings that are read -/

theorem inOrder_of_sectionMembers? {origin : Origin} {names : List String} {v : Json}
    {fs : Fields Json} (hv : v.InOrder) (h : sectionMembers? origin names v = some fs) :
    ∀ q ∈ fs, q.2.InOrder := by
  have hzip : ∀ {items : List Json}, Json.InOrder (.array items) →
      ∀ q ∈ Fields.ofList (names.zip items), q.2.InOrder := by
    intro items hitems q hq
    have hmem := Fields.mem_of_mem_ofList hq
    exact Json.inOrder_array.mp hitems q.2 (List.of_mem_zip hmem).2
  cases v with
  | object gs =>
      obtain rfl := Option.some.inj h
      exact (Json.inOrder_object.mp hv).2
  | array items =>
      cases origin with
      | file =>
          obtain rfl := Option.some.inj h
          exact hzip hv
      | json =>
          simp only [sectionMembers?, Json.recordMembers?, Option.ite_none_right_eq_some] at h
          obtain ⟨_, h⟩ := h
          obtain rfl := Option.some.inj h
          exact hzip hv
  | _ => cases h

theorem setting?_cases {α : Type} {read? : Json → Option α} {fs : Fields Json} {name : String}
    {unset x : α} (h : setting? read? fs name unset = some x) :
    x = unset ∨ ∃ v, Fields.get? fs name = some v ∧ read? v = some x := by
  rw [setting?] at h
  split at h
  · exact .inl (Option.some.inj h).symm
  · exact .inr ⟨_, ‹_›, h⟩

theorem keys_of_mapM {fs : Fields Json} {table : Fields String}
    (h : fs.mapM (fun (k, v) => v.asString?.map (k, ·)) = some table) :
    Fields.keys table = Fields.keys fs := by
  induction fs generalizing table with
  | nil =>
      obtain rfl := Option.some.inj h
      rfl
  | cons q fs ih =>
      simp only [List.mapM_cons, Option.bind_eq_bind, Option.bind_eq_some_iff,
        Option.map_eq_some_iff, Option.pure_def] at h
      obtain ⟨_, ⟨s, _, rfl⟩, rest, hrest, h⟩ := h
      obtain rfl := Option.some.inj h
      exact congrArg (q.1 :: ·) (ih hrest)

theorem ascending_of_textTable? {v : Json} {table : Fields String} (hv : v.InOrder)
    (h : textTable? v = some table) : Fields.Ascending table := by
  obtain ⟨fs, hfs, htable⟩ := Option.bind_eq_some_iff.mp h
  cases v with
  | object gs =>
      obtain rfl := Option.some.inj hfs
      exact (Json.inOrder_object.mp hv).1.of_keys (keys_of_mapM htable)
  | _ => cases hfs

theorem ascending_of_transportOfTree? {origin : Origin} {v : Json} {s : TransportSettings}
    (hv : v.InOrder) (h : transportOfTree? origin v = some s) : Fields.Ascending s.headers := by
  simp only [transportOfTree?, Option.bind_eq_bind, Option.bind_eq_some_iff] at h
  obtain ⟨fs, hfs, _, _, headers, hheaders, _, _, _, _, _, _, h⟩ := h
  obtain rfl := Option.some.inj h
  rcases setting?_cases hheaders with rfl | ⟨u, hu, htable⟩
  · exact .nil
  · exact ascending_of_textTable?
      (inOrder_of_sectionMembers? hv hfs _ (Fields.mem_of_get? hu)) htable

/-- What is read from values whose members are in order is a layer. -/
theorem Proper.of_ofTree? {origin : Origin} {v : Json} (hv : v.InOrder)
    (h : ofTree? origin v = some a) : a.Proper := by
  simp only [ofTree?, Option.bind_eq_bind, Option.bind_eq_some_iff] at h
  obtain ⟨fs, hfs, _, _, _, _, _, _, transport, htransport, _, _, h⟩ := h
  obtain rfl := Option.some.inj h
  rcases setting?_cases htransport with rfl | ⟨u, hu, hread⟩
  · exact ⟨.nil⟩
  · exact ⟨ascending_of_transportOfTree?
      (inOrder_of_sectionMembers? hv hfs _ (Fields.mem_of_get? hu)) hread⟩

/-! ### Any number of layers -/

/-- Layers in their order, with a grouping of them. -/
inductive Layering
  | layer (s : Settings)
  | stack (earlier later : Layering)

namespace Layering

/-- The layers, the earliest first. -/
def layers : Layering → List Settings
  | layer s => [s]
  | stack earlier later => earlier.layers ++ later.layers

/-- The layers merged group by group. -/
def merged : Layering → Settings
  | layer s => s
  | stack earlier later => merge earlier.merged later.merged

end Layering

theorem Proper.foldl {layers : List Settings} (h : a.Proper) :
    (layers.foldl Settings.merge a).Proper := by
  induction layers generalizing a with
  | nil => exact h
  | cons s layers ih => exact ih (h.merge s)

/-- What is merged onto settings is merged on its own first. -/
theorem merge_foldl {layers : List Settings} (hl : ∀ s ∈ layers, s.Proper) (ha : a.Proper)
    (hb : b.Proper) : merge a (layers.foldl merge b) = layers.foldl merge (merge a b) := by
  induction layers generalizing b with
  | nil => rfl
  | cons s layers ih =>
      obtain ⟨hs, hl⟩ := List.forall_mem_cons.mp hl
      rw [List.foldl_cons, List.foldl_cons, ih hl (hb.merge s), merge_assoc ha hb hs]

/-- However layers are grouped, they are merged like one after the other. -/
theorem Layering.merged_eq_foldl (t : Layering) (h : ∀ s ∈ t.layers, s.Proper) :
    t.merged = t.layers.foldl merge {} := by
  induction t with
  | layer s => exact (merge_unset_left (h s List.mem_cons_self)).symm
  | stack earlier later ihe ihl =>
      obtain ⟨he, hl⟩ := List.forall_mem_append.mp h
      rw [merged, ihe he, ihl hl, merge_foldl hl Proper.unset.foldl .unset, merge_unset_right,
        layers, List.foldl_append]

/-- Layers that say nothing can be left out. -/
theorem foldl_filter_unset (layers : List Settings) (a : Settings) :
    (layers.filter (· ≠ {})).foldl merge a = layers.foldl merge a := by
  induction layers generalizing a with
  | nil => rfl
  | cons s layers ih =>
      by_cases hs : s = {}
      · rw [List.filter_cons_of_neg (by simp [hs]), ih, List.foldl_cons, hs, merge_unset_right]
      · rw [List.filter_cons_of_pos (by simp [hs]), List.foldl_cons, List.foldl_cons, ih]

/-- Merging is associative, with the default settings as its neutral element. However layers are
grouped, all that counts is the order of those that say something. -/
theorem merge_layers (ha : a.Proper) (hb : b.Proper) (hc : c.Proper) :
    merge (merge a b) c = merge a (merge b c) ∧ merge {} a = a ∧ merge a {} = a ∧
      ∀ t : Layering, (∀ s ∈ t.layers, s.Proper) →
        t.merged = (t.layers.filter (· ≠ {})).foldl merge {} := by
  refine ⟨merge_assoc ha hb hc, merge_unset_left ha, merge_unset_right a, fun t ht => ?_⟩
  rw [foldl_filter_unset]
  exact t.merged_eq_foldl ht

/-- The layers of a user, of a project below it and of a variant of the project. -/
def userLayer : Settings where
  transport := { endpoint := "https://example.com/graphql", headers := [("x-client", "user")] }
  logging := { level := "debug", format := .json }

def projectLayer : Settings where
  cache := { normalization := false }
  transport := { endpoint := "http://localhost:5000/graphql", headers := [("x-team", "local")] }

def variantLayer : Settings where
  cache := { immutable := true, arrayMerge := .replace }
  transport := { headers := [("x-client", "variant")], timeout := 5 }

/-- The variant is put over the project first, and a layer that says nothing stands in between. -/
theorem merge_layers_variant :
    userLayer.Proper ∧ projectLayer.Proper ∧ variantLayer.Proper ∧
    merge (merge userLayer projectLayer) variantLayer =
      merge userLayer (merge projectLayer variantLayer) ∧
    merge {} userLayer = userLayer ∧ merge userLayer {} = userLayer ∧
    (Layering.stack (.layer userLayer)
      (.stack (.layer {}) (.stack (.layer projectLayer) (.layer variantLayer)))).merged =
      { cache := { normalization := false, immutable := true, arrayMerge := .replace }
        transport := {
          endpoint := "http://localhost:5000/graphql"
          headers := [("x-client", "variant"), ("x-team", "local")]
          timeout := 5 }
        logging := { level := "debug", format := .json } } := by
  have hu : userLayer.Proper := ⟨by decide⟩
  have hp : projectLayer.Proper := ⟨by decide⟩
  have hv : variantLayer.Proper := ⟨by decide⟩
  obtain ⟨hassoc, hleft, hright, hgrouped⟩ := merge_layers hu hp hv
  refine ⟨hu, hp, hv, hassoc, hleft, hright, ?_⟩
  rw [hgrouped _ (by simp [Layering.layers, hu, hp, hv, Proper.unset])]
  decide

end Settings
end LazyGraph
