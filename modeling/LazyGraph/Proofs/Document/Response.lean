import Mathlib.Data.List.Forall2
import LazyGraph.Proofs.Document
import LazyGraph.Proofs.Selection.Tree

/-!
What the response to a document holds: the paths of its fields are those of the selections that
it was compiled for.
-/
namespace LazyGraph

namespace Selection

/-- The operation of the document that asks for a selection, with the top field of a
subscription. A root is not asked for. -/
def documentKey? (s : Selection) : Option (Operation × String) :=
  match s.operation?, s.cacheKeys.tail with
  | some .subscription, top :: _ => some (.subscription, top)
  | some operation, _ :: _ => some (operation, "")
  | _, _ => none

/-- Selections of one tree for each operation, all of whose nodes are legal, with a field at the
top. -/
structure Gathered (ss : List Selection) : Prop where
  operation : ∀ s ∈ ss, s.operation? ≠ none
  tree : ∀ s ∈ ss, ∀ t ∈ ss, s.operation? = t.operation? → s.rootNode.id = t.rootNode.id
  legal : ∀ s ∈ ss, ∀ n ∈ s.ancestry, n.isLegal = true
  top : ∀ s ∈ ss, ∀ n ∈ s.ancestry[1]?, n.isPlace = true

theorem Gathered.mono {ss ts : List Selection} (h : Gathered ss) (hs : ts ⊆ ss) : Gathered ts where
  operation := fun s hm => h.operation s (hs hm)
  tree := fun s hm t ht => h.tree s (hs hm) t (hs ht)
  legal := fun s hm => h.legal s (hs hm)
  top := fun s hm => h.top s (hs hm)

end Selection

namespace Document

open Selection (Node isGraphName isNameChar isNameStart)

/-! ### Heads -/

namespace Head

def isLegal : Head → Bool
  | .field aliasName name _ => aliasName.all isGraphName && isGraphName name
  | .branch _ => true

/-- The paths of what stands below a head. -/
def under (h : Head) (paths : List (List String)) : List (List String) :=
  match h.responseKey? with
  | some key => [key] :: paths.map (key :: ·)
  | none => paths

variable {h h' : Head} {path : List String}

theorem takeWhile_isNameChar {s : String} (hs : isGraphName s = true) {c : Char}
    (hc : isNameChar c = false) (rest : List Char) :
    (s.toList ++ c :: rest).takeWhile isNameChar = s.toList := by
  rw [List.takeWhile_append_of_pos (Selection.isNameChar_of_isGraphName hs),
    List.takeWhile_cons_of_neg (by rw [hc]; decide), List.append_nil]

/-- A legal head starts with the text of its response key. -/
theorem takeWhile_text (hl : h.isLegal = true) :
    h.text.toList.takeWhile isNameChar = (h.responseKey?.getD "").toList := by
  cases h with
  | branch type =>
      rw [text, String.toList_append]
      rfl
  | field aliasName name arguments =>
      rw [isLegal, Bool.and_eq_true] at hl
      cases aliasName with
      | some a =>
          obtain ⟨rest, htext⟩ : ∃ rest, (field (some a) name arguments).text.toList =
              a.toList ++ ':' :: rest := by
            simp only [text, String.toList_append, List.append_assoc]
            exact ⟨_, rfl⟩
          rw [htext, takeWhile_isNameChar hl.1 (by decide)]
          rfl
      | none =>
          cases arguments with
          | nil =>
              have htext : (field none name []).text = name := by simp [text]
              have hname := Selection.isNameChar_of_isGraphName hl.2
              have htake : (name.toList ++ []).takeWhile isNameChar = name.toList ++ [] :=
                List.takeWhile_append_of_pos hname
              rw [List.append_nil] at htake
              rw [htext, htake]
              rfl
          | cons a arguments =>
              have htext : (field none name (a :: arguments)).text.toList = name.toList ++ '(' ::
                  (",".intercalate ((a :: arguments).map argumentText) ++ ")").toList := by
                simp only [text, String.toList_append, List.append_assoc]
                rfl
              rw [htext, takeWhile_isNameChar hl.2 (by decide)]
              rfl

theorem responseKey?_ne_empty (hl : h.isLegal = true) : h.responseKey? ≠ some "" := by
  cases h with
  | branch type => exact nofun
  | field aliasName name arguments =>
      rw [isLegal, Bool.and_eq_true] at hl
      intro he
      cases aliasName with
      | some a =>
          obtain rfl : a = "" := Option.some.inj he
          exact absurd hl.1 (by decide)
      | none =>
          obtain rfl : name = "" := Option.some.inj he
          exact absurd hl.2 (by decide)

/-- Legal heads of one text stand for one key of the response. -/
theorem responseKey?_eq_of_text (hl : h.isLegal = true) (hl' : h'.isLegal = true)
    (he : h.text = h'.text) : h.responseKey? = h'.responseKey? := by
  have hkeys : h.responseKey?.getD "" = h'.responseKey?.getD "" := by
    rw [← String.toList_inj, ← takeWhile_text hl, ← takeWhile_text hl', he]
  have hne := responseKey?_ne_empty hl
  have hne' := responseKey?_ne_empty hl'
  cases hk : h.responseKey? with
  | none =>
      cases hk' : h'.responseKey? with
      | none => rfl
      | some key' =>
          rw [hk, hk'] at hkeys
          exact absurd (hk'.trans (congrArg some hkeys.symm)) hne'
  | some key =>
      cases hk' : h'.responseKey? with
      | none =>
          rw [hk, hk'] at hkeys
          exact absurd (hk.trans (congrArg some hkeys)) hne
      | some key' =>
          rw [hk, hk'] at hkeys
          exact congrArg some hkeys

theorem under_eq_of_text (hl : h.isLegal = true) (hl' : h'.isLegal = true)
    (he : h.text = h'.text) (paths : List (List String)) : h.under paths = h'.under paths := by
  rw [under, under, responseKey?_eq_of_text hl hl' he]

theorem under_mono {ps qs : List (List String)} (h : Head) (hs : ps ⊆ qs) :
    h.under ps ⊆ h.under qs := by
  rw [under, under]
  split
  · exact List.cons_subset_cons _ (List.map_subset _ hs)
  · exact hs

/-- Below a head the prefixes of a way become those of the way with the head's key in front. -/
theorem mem_under_iff {ps qs : List (List String)} {keys : List String}
    (hq : ∀ q, q ∈ qs ↔ q ∈ ps ∨ q ≠ [] ∧ q <+: keys) :
    path ∈ h.under qs ↔ path ∈ h.under ps ∨ path ≠ [] ∧ path <+: h.responseKey?.toList ++ keys := by
  rw [under, under]
  cases h.responseKey? with
  | none => exact hq path
  | some key =>
      simp only [Option.toList_some, List.singleton_append, List.mem_cons, List.mem_map]
      constructor
      · rintro (rfl | ⟨q, hmem, rfl⟩)
        · exact .inl (.inl rfl)
        · rcases (hq q).mp hmem with hmem | ⟨_, hpre⟩
          · exact .inl (.inr ⟨q, hmem, rfl⟩)
          · exact .inr ⟨List.cons_ne_nil _ _, List.cons_prefix_cons.mpr ⟨rfl, hpre⟩⟩
      · rintro ((rfl | ⟨q, hmem, rfl⟩) | ⟨hne, hpre⟩)
        · exact .inl rfl
        · exact .inr ⟨q, (hq q).mpr (.inl hmem), rfl⟩
        · rcases List.prefix_cons_iff.mp hpre with rfl | ⟨q, rfl, hpre⟩
          · exact absurd rfl hne
          · cases q with
            | nil => exact .inl rfl
            | cons k q => exact .inr ⟨_, (hq _).mpr (.inr ⟨List.cons_ne_nil _ _,
                List.cons_prefix_cons.mp hpre |>.2⟩), rfl⟩

end Head

/-! ### Trees -/

namespace FieldTree

mutual
/-- The way down to each field, as the keys of the response; a branch adds none. -/
def responsePaths : FieldTree → List (List String)
  | .node children => childPaths children

def childPaths : List (Head × FieldTree) → List (List String)
  | [] => []
  | (h, t) :: rest => h.under (responsePaths t) ++ childPaths rest
end

/-- All heads are legal. -/
inductive Legal : FieldTree → Prop
  | node {children : List (Head × FieldTree)} (heads : ∀ q ∈ children, q.1.isLegal = true)
    (parts : ∀ q ∈ children, Legal q.2) : Legal (.node children)

variable {t u : FieldTree} {head : Head} {children : List (Head × FieldTree)}
  {path : List String}

theorem legal_iff_throughout : t.Legal ↔ t.Throughout fun head => head.isLegal = true := by
  constructor
  · intro h
    induction h with
    | node heads _ ih => exact .node heads ih
  · intro h
    induction h with
    | node heads _ ih => exact .node heads ih

theorem Legal.empty : Legal empty := legal_iff_throughout.mpr .empty

theorem Legal.below_getD (h : t.Legal) (text : String) :
    ((t.below? text).getD FieldTree.empty).Legal :=
  legal_iff_throughout.mpr ((legal_iff_throughout.mp h).below_getD text)

theorem Legal.insert (h : t.Legal) {way : List Head} (hway : ∀ x ∈ way, x.isLegal = true) :
    (t.insert way).Legal :=
  legal_iff_throughout.mpr ((legal_iff_throughout.mp h).insert hway)

/-- What stood below the head stays, so a tree that is put in its place only adds paths. -/
theorem mem_childPaths_put (heads : ∀ q ∈ children, q.1.isLegal = true)
    (hhead : head.isLegal = true)
    (hold : ∀ v, (node children).below? head.text = some v → v.responsePaths ⊆ u.responsePaths) :
    path ∈ childPaths (put head u children) ↔
      path ∈ head.under u.responsePaths ∨ path ∈ childPaths children := by
  induction children with
  | nil =>
      simp only [put, childPaths, List.mem_append]
  | cons q children ih =>
      obtain ⟨hq, hrest⟩ := List.forall_mem_cons.mp heads
      obtain ⟨h, v⟩ := q
      rw [put]
      split
      · rename_i he
        have hunder := Head.under_eq_of_text hq hhead he.symm
        have hv : v.responsePaths ⊆ u.responsePaths := by
          refine hold v ?_
          rw [below?_cons, if_pos he.symm]
        have hkept : path ∈ h.under v.responsePaths → path ∈ h.under u.responsePaths :=
          fun hp => Head.under_mono h hv hp
        rw [childPaths, childPaths, List.mem_append, List.mem_append, ← hunder]
        tauto
      · rename_i hne
        split
        · rw [childPaths, List.mem_append]
        · have hput := ih hrest fun w hw => hold w (by
            rw [below?_cons, if_neg fun he => hne he.symm]
            exact hw)
          rw [childPaths, childPaths, List.mem_append, List.mem_append, hput]
          tauto

theorem mem_childPaths : path ∈ childPaths children ↔
    ∃ q ∈ children, path ∈ q.1.under q.2.responsePaths := by
  induction children with
  | nil => simp [childPaths]
  | cons q children ih =>
      rw [childPaths, List.mem_append, ih]
      simp only [List.mem_cons, exists_eq_or_imp]

/-- The paths below a head are paths of the tree, but for the head's own without a tree. -/
theorem under_below (heads : ∀ q ∈ children, q.1.isLegal = true) (hhead : head.isLegal = true)
    (hp : path ∈ head.under (((node children).below? head.text).getD empty).responsePaths) :
    path ∈ childPaths children ∨ path ≠ [] ∧ path <+: head.responseKey?.toList := by
  cases hv : (node children).below? head.text with
  | none =>
      rw [hv, Option.getD_none, empty, responsePaths, childPaths, Head.under] at hp
      cases hkey : head.responseKey? with
      | none =>
          rw [hkey] at hp
          cases hp
      | some key =>
          rw [hkey] at hp
          obtain rfl := List.mem_singleton.mp hp
          exact .inr ⟨List.cons_ne_nil _ _, List.prefix_refl _⟩
  | some v =>
      rw [hv] at hp
      obtain ⟨q, hq, rfl⟩ := Option.map_eq_some_iff.mp hv
      have hmem := List.mem_of_find?_eq_some hq
      have hfound := List.find?_some hq
      have htext : q.1.text = head.text := beq_iff_eq.mp hfound
      rw [Head.under_eq_of_text hhead (heads q hmem) htext.symm] at hp
      exact .inl (mem_childPaths.mpr ⟨q, hmem, hp⟩)

/-- A way that is inserted adds the prefixes of its keys. -/
theorem mem_responsePaths_insert (ht : t.Legal) {way : List Head}
    (hway : ∀ x ∈ way, x.isLegal = true) : path ∈ (t.insert way).responsePaths ↔
      path ∈ t.responsePaths ∨ path ≠ [] ∧ path <+: way.filterMap Head.responseKey? := by
  induction way generalizing t path with
  | nil =>
      rw [insert, List.filterMap_nil, List.prefix_nil]
      tauto
  | cons head rest ih =>
      obtain ⟨hhead, hrest⟩ := List.forall_mem_cons.mp hway
      have hbelow := fun q => @ih _ q (ht.below_getD head.text) hrest
      have hunder := @Head.mem_under_iff head path _ _ _ hbelow
      cases ht with
      | @node children heads parts =>
          have hkeys : (head :: rest).filterMap Head.responseKey? =
              head.responseKey?.toList ++ rest.filterMap Head.responseKey? := by
            rw [List.filterMap_cons]
            cases head.responseKey? <;> rfl
          have hkept := @under_below head children path heads hhead
          have hput := @mem_childPaths_put _ head children path heads hhead fun v hv q hq =>
            (hbelow q).mpr (.inl (by
              rw [hv]
              exact hq))
          rw [insert, FieldTree.children, responsePaths, responsePaths, hput, hunder, hkeys]
          constructor
          · rintro ((hp | hp) | hp)
            · rcases hkept hp with hp | ⟨hne, hpre⟩
              · exact .inl hp
              · exact .inr ⟨hne, hpre.trans (List.prefix_append _ _)⟩
            · exact .inr hp
            · exact .inl hp
          · rintro (hp | hp)
            · exact .inr hp
            · exact .inl (.inr hp)

end FieldTree

/-! ### Ways -/

/-- The keys that the places among nodes get in a response. -/
def placeKeys (nodes : List Node) : List String := (nodes.filter (·.isPlace)).map (·.label)

theorem placeKeys_cons (n : Node) (nodes : List Node) :
    placeKeys (n :: nodes) = if n.isPlace then n.label :: placeKeys nodes else placeKeys nodes := by
  rw [placeKeys, List.filter_cons]
  split <;> rfl

/-- The heads of a way stand for the keys of its places. -/
theorem filterMap_heads (vs : Variables) (way : List Node) :
    (heads vs way).1.filterMap Head.responseKey? = placeKeys way := by
  induction way generalizing vs with
  | nil => rfl
  | cons n rest ih =>
      rw [placeKeys_cons, Node.isPlace]
      cases hkey : n.key with
      | index position =>
          rw [heads, hkey]
          exact ih vs
      | field name =>
          simp only [heads, hkey]
          cases hmarker : n.isMarker with
          | true => exact ih vs
          | false =>
              cases hbranch : n.isBranch with
              | true => exact ih vs
              | false =>
                  have hlabel : n.label = n.aliasName.getD name := by rw [Node.label, hkey]; rfl
                  rw [hlabel]
                  exact congrArg (n.aliasName.getD name :: ·) (ih _)

theorem isLegal_heads (vs : Variables) {way : List Node} (hway : ∀ n ∈ way, n.isLegal = true) :
    ∀ h ∈ (heads vs way).1, h.isLegal = true := by
  induction way generalizing vs with
  | nil => exact fun _ h => absurd h List.not_mem_nil
  | cons n rest ih =>
      obtain ⟨hn, hrest⟩ := List.forall_mem_cons.mp hway
      cases hkey : n.key with
      | index position =>
          rw [heads, hkey]
          exact ih vs hrest
      | field name =>
          simp only [heads, hkey]
          cases hmarker : n.isMarker with
          | true => exact ih vs hrest
          | false =>
              cases hbranch : n.isBranch with
              | true => exact List.forall_mem_cons.mpr ⟨rfl, ih vs hrest⟩
              | false =>
                  refine List.forall_mem_cons.mpr ⟨?_, ih _ hrest⟩
                  rw [Head.isLegal, Node.isGraphName_key hn hkey hmarker, Bool.and_true]
                  cases ha : n.aliasName with
                  | none => rfl
                  | some a => exact Node.isGraphName_aliasName hn ha

/-- The tree of ways holds the prefixes of the keys of their places, and nothing else. -/
theorem mem_responsePaths_grow {ways : List (List Node)}
    (hways : ∀ way ∈ ways, ∀ n ∈ way, n.isLegal = true) {path : List String} :
    path ∈ (grow ways).1.responsePaths ↔
      path ≠ [] ∧ ∃ way ∈ ways, path <+: placeKeys way := by
  have hfold : ∀ acc : FieldTree × Variables, acc.1.Legal →
      (path ∈ (ways.foldl (fun acc way =>
          (acc.1.insert (heads acc.2 way).1, (heads acc.2 way).2)) acc).1.responsePaths ↔
        path ∈ acc.1.responsePaths ∨ path ≠ [] ∧ ∃ way ∈ ways, path <+: placeKeys way) := by
    induction ways with
    | nil => exact fun acc _ => by simp
    | cons way ways ih =>
        intro acc hacc
        obtain ⟨hway, hrest⟩ := List.forall_mem_cons.mp hways
        have hheads := isLegal_heads acc.2 hway
        have hnext := ih hrest (acc.1.insert (heads acc.2 way).1, (heads acc.2 way).2)
          (hacc.insert hheads)
        have hinsert := @FieldTree.mem_responsePaths_insert _ path hacc _ hheads
        rw [filterMap_heads] at hinsert
        rw [List.foldl_cons, hnext, hinsert]
        simp only [List.mem_cons, exists_eq_or_imp]
        tauto
  have hgrow := hfold (.empty, []) .empty
  rw [grow]
  refine hgrow.trans (or_iff_right ?_)
  simp [FieldTree.empty, FieldTree.responsePaths, FieldTree.childPaths]

/-! ### Routes and groups -/

/-- The route that a selection takes. -/
structure Route.Of (s : Selection) (r : Route) : Prop where
  key : s.documentKey? = some (r.operation, r.group)
  top : r.first.isPlace = true
  legal : ∀ n ∈ r.first :: r.rest, n.isLegal = true
  keys : placeKeys (r.first :: r.rest) = s.cacheKeys.tail

/-- The document asks for the selections of this key, and for nothing else. -/
structure Responds (ss : List Selection) (key : Operation × String) (d : Document) : Prop where
  operation : d.operation = key.1
  paths : ∀ path, path ∈ d.fields.responsePaths ↔
    path ≠ [] ∧ ∃ s ∈ ss, s.documentKey? = some key ∧ path <+: s.cacheKeys.tail

theorem mapM_ok {α β ε : Type} {f : α → Except ε β} {P : α → β → Prop} {l : List α}
    (h : ∀ a ∈ l, ∃ b, f a = .ok b ∧ P a b) :
    ∃ bs, l.mapM f = .ok bs ∧ (∀ a ∈ l, ∃ b ∈ bs, P a b) ∧ ∀ b ∈ bs, ∃ a ∈ l, P a b := by
  induction l with
  | nil => exact ⟨[], rfl, fun _ h => absurd h List.not_mem_nil, fun _ h => absurd h List.not_mem_nil⟩
  | cons a l ih =>
      obtain ⟨⟨b, hb, hp⟩, hrest⟩ := List.forall_mem_cons.mp h
      obtain ⟨bs, hbs, hthere, hback⟩ := ih hrest
      refine ⟨b :: bs, ?_, List.forall_mem_cons.mpr ⟨⟨b, List.mem_cons_self, hp⟩, ?_⟩,
        List.forall_mem_cons.mpr ⟨⟨a, List.mem_cons_self, hp⟩, ?_⟩⟩
      · rw [List.mapM_cons, hb, hbs]
        rfl
      · intro a ha
        obtain ⟨b, hb, hp⟩ := hthere a ha
        exact ⟨b, List.mem_cons_of_mem _ hb, hp⟩
      · intro b hb
        obtain ⟨a, ha, hp⟩ := hback b hb
        exact ⟨a, List.mem_cons_of_mem _ ha, hp⟩

theorem forall₂_of_mapM_ok {α β ε : Type} {f : α → Except ε β} {xs : List α} {ys : List β}
    (h : xs.mapM f = .ok ys) : List.Forall₂ (fun x y => f x = .ok y) xs ys := by
  induction xs generalizing ys with
  | nil =>
      obtain rfl := Except.ok.inj h
      exact .nil
  | cons x xs ih =>
      rw [List.mapM_cons] at h
      cases hx : f x with
      | error e =>
          rw [hx] at h
          cases h
      | ok y =>
          rw [hx] at h
          cases hxs : xs.mapM f with
          | error e =>
              rw [hxs] at h
              cases h
          | ok rest =>
              rw [hxs] at h
              obtain rfl := Except.ok.inj h
              exact .cons hx (ih hxs)

theorem mem_iff_of_mapM_ok {α β ε : Type} {f : α → Except ε β} {xs : List α} {ys : List β}
    (h : xs.mapM f = .ok ys) {y : β} : y ∈ ys ↔ ∃ x ∈ xs, f x = .ok y := by
  have hall := forall₂_of_mapM_ok h
  clear h
  induction hall with
  | nil => simp
  | @cons x z xs ys hx _ ih =>
      rw [List.mem_cons, List.exists_mem_cons_iff, hx, Except.ok.injEq]
      exact or_congr eq_comm ih

theorem forall₂_filterMap {α β γ : Type} {F : β → Option γ} {G : α → β} {R : α → γ → Prop}
    {l : List α} (h : ∀ a ∈ l, ∃ c, F (G a) = some c ∧ R a c) :
    List.Forall₂ R l ((l.map G).filterMap F) := by
  induction l with
  | nil => exact .nil
  | cons a l ih =>
      obtain ⟨⟨c, hc, hr⟩, hrest⟩ := List.forall_mem_cons.mp h
      rw [List.map_cons, List.filterMap_cons, hc]
      exact .cons hr (ih hrest)

section

variable {ss : List Selection} {routes : List Route}

theorem mem_groupNames {rs : List Route} {name : String} :
    name ∈ Fields.keys (Fields.ofList (rs.map fun r => (r.group, ()))) ↔
      ∃ r ∈ rs, r.group = name := by
  have hoverlay : name ∈ Fields.keys (Fields.overlay [] (rs.map fun r => (r.group, ()))) ↔ _ :=
    Fields.mem_keys_overlay
  refine hoverlay.trans ?_
  simp [Fields.keys]

/-- A group of routes has a document, which asks for what they lead to. -/
theorem exists_ofGroup? (hroutes : ∀ r ∈ routes, ∃ s ∈ ss, Route.Of s r)
    (hss : ∀ s ∈ ss, s.documentKey? ≠ none → ∃ r ∈ routes, Route.Of s r)
    (operation : Operation) (operationName : Option String) {route : Route}
    (hroute : route ∈ routes) (hoperation : route.operation = operation) :
    ∃ d, ofGroup? operation operationName
        ((routes.filter (·.operation == operation)).filter (·.group == route.group)) = some d ∧
      Responds ss (operation, route.group) d := by
  let rs := (routes.filter (·.operation == operation)).filter (·.group == route.group)
  have hrs : ∀ r, r ∈ rs ↔ r ∈ routes ∧ r.operation = operation ∧ r.group = route.group := by
    intro r
    simp only [rs, List.mem_filter, beq_iff_eq, and_assoc]
  have hlegal : ∀ way ∈ rs.map fun r => r.first :: r.rest, ∀ n ∈ way, n.isLegal = true := by
    intro way hway
    obtain ⟨r, hr, rfl⟩ := List.mem_map.mp hway
    obtain ⟨s, _, hof⟩ := hroutes r ((hrs r).mp hr).1
    exact hof.legal
  have hpaths : ∀ path, path ∈ (grow (rs.map fun r => r.first :: r.rest)).1.responsePaths ↔
      path ≠ [] ∧ ∃ s ∈ ss, s.documentKey? = some (operation, route.group) ∧
        path <+: s.cacheKeys.tail := by
    intro path
    rw [mem_responsePaths_grow hlegal]
    refine and_congr_right fun _ => ?_
    constructor
    · rintro ⟨way, hway, hpre⟩
      obtain ⟨r, hr, rfl⟩ := List.mem_map.mp hway
      obtain ⟨hmem, hop, hgroup⟩ := (hrs r).mp hr
      obtain ⟨s, hs, hof⟩ := hroutes r hmem
      exact ⟨s, hs, by rw [hof.key, hop, hgroup], hof.keys ▸ hpre⟩
    · rintro ⟨s, hs, hkey, hpre⟩
      obtain ⟨r, hmem, hof⟩ := hss s hs (by rw [hkey]; exact nofun)
      obtain ⟨hop, hgroup⟩ := Prod.mk.inj (Option.some.inj (hof.key.symm.trans hkey))
      exact ⟨_, List.mem_map_of_mem ((hrs r).mpr ⟨hmem, hop, hgroup⟩), hof.keys.symm ▸ hpre⟩
  have hfull : (grow (rs.map fun r => r.first :: r.rest)).1.isEmpty = false := by
    obtain ⟨s, hs, hof⟩ := hroutes route hroute
    have htop : [route.first.label] ∈ (grow (rs.map fun r => r.first :: r.rest)).1.responsePaths := by
      refine (hpaths _).mpr ⟨List.cons_ne_nil _ _, s, hs, by rw [hof.key, hoperation], ?_⟩
      rw [← hof.keys, placeKeys_cons, if_pos hof.top]
      exact List.cons_prefix_cons.mpr ⟨rfl, List.nil_prefix⟩
    generalize (grow (rs.map fun r => r.first :: r.rest)).1 = tree at htop
    cases tree with
    | node children =>
        cases children with
        | nil => exact absurd htop (by simp [FieldTree.responsePaths, FieldTree.childPaths])
        | cons q children => rfl
  refine ⟨{ operation, operationName
            fields := (grow (rs.map fun r => r.first :: r.rest)).1
            declared := (grow (rs.map fun r => r.first :: r.rest)).2 }, ?_, rfl, hpaths⟩
  rw [ofGroup?]
  simp only [rs, hfull, Bool.false_eq_true, if_false]

/-- The documents of routes, one for each key of their selections. -/
theorem exists_documents (hroutes : ∀ r ∈ routes, ∃ s ∈ ss, Route.Of s r)
    (hss : ∀ s ∈ ss, s.documentKey? ≠ none → ∃ r ∈ routes, Route.Of s r)
    (operationName : Option String) : ∃ keys : List (Operation × String), keys.Nodup ∧
      (∀ key, key ∈ keys ↔ ∃ s ∈ ss, s.documentKey? = some key) ∧
      List.Forall₂ (Responds ss) keys (Operation.all.flatMap fun operation =>
        (groups operation routes).filterMap (ofGroup? operation operationName)) := by
  let names : Operation → List String := fun operation => Fields.keys (Fields.ofList
    ((routes.filter (·.operation == operation)).map fun r => (r.group, ())))
  have hnames : ∀ operation name, name ∈ names operation ↔
      ∃ r ∈ routes, r.operation = operation ∧ r.group = name := by
    intro operation name
    refine mem_groupNames.trans ?_
    simp only [List.mem_filter, beq_iff_eq, and_assoc]
  refine ⟨Operation.all.flatMap fun operation => (names operation).map (operation, ·), ?_, ?_, ?_⟩
  · rw [List.nodup_flatMap]
    constructor
    · intro operation _
      refine List.Nodup.map (fun a b he => (Prod.mk.inj he).2) ?_
      exact (Fields.ofList_ascending _).nodup_keys
    · have hall : Operation.all.Nodup := by decide
      refine hall.imp fun {a b} hne key ha hb => hne ?_
      obtain ⟨_, _, rfl⟩ := List.mem_map.mp ha
      obtain ⟨_, _, he⟩ := List.mem_map.mp hb
      exact (Prod.mk.inj he).1.symm
  · intro key
    rw [List.mem_flatMap]
    constructor
    · rintro ⟨operation, _, hkey⟩
      obtain ⟨name, hname, rfl⟩ := List.mem_map.mp hkey
      obtain ⟨r, hr, rfl, rfl⟩ := (hnames operation name).mp hname
      obtain ⟨s, hs, hof⟩ := hroutes r hr
      exact ⟨s, hs, hof.key⟩
    · rintro ⟨s, hs, hkey⟩
      obtain ⟨r, hr, hof⟩ := hss s hs (by rw [hkey]; exact nofun)
      obtain rfl := Option.some.inj (hof.key.symm.trans hkey)
      refine ⟨r.operation, by cases r.operation <;> decide, List.mem_map.mpr ⟨r.group, ?_, rfl⟩⟩
      exact (hnames _ _).mpr ⟨r, hr, rfl, rfl⟩
  · have hgroup : ∀ operation, List.Forall₂ (Responds ss) ((names operation).map (operation, ·))
        ((groups operation routes).filterMap (ofGroup? operation operationName)) := by
      intro operation
      rw [List.forall₂_map_left_iff]
      refine forall₂_filterMap fun name hname => ?_
      obtain ⟨r, hr, hoperation, rfl⟩ := (hnames operation name).mp hname
      exact exists_ofGroup? hroutes hss operation operationName hr hoperation
    induction Operation.all with
    | nil => exact .nil
    | cons operation rest ih => exact List.rel_append (hgroup operation) ih

end

open Selection.Forest (Sound)

section

variable {f : Selection.Forest} {roots ss : List Selection} {s : Selection}

theorem operation_text_isPlace {s : Selection} (hroot : Selection.Forest.IsRoot s)
    (hop : Operation.ofText? s.node.key.text ≠ none) : s.node.isPlace = true := by
  obtain ⟨name, hkey⟩ := hroot.key
  have hmarker : name ≠ unionMarker := by
    rintro rfl
    rw [hkey] at hop
    exact hop (by decide)
  rw [Node.isPlace, Node.isMarker, hroot.isBranch, hkey, Selection.Key.isIndex,
    decide_eq_false fun he => hmarker (Selection.Key.field.inj he)]
  rfl

/-- The cache keys of a selection start with its root. -/
theorem Sound.cacheKeys_tail (hf : Sound f roots) (hs : s ∈ f.handed roots)
    (hop : s.operation? ≠ none) : s.cacheKeys.tail = placeKeys s.ancestry.tail := by
  obtain ⟨root, hroot, nodes, hnodes, htop⟩ := hf.exists_root hs
  rw [Selection.operation?, htop] at hop
  have hplace := operation_text_isPlace (hf.tops root hroot) hop
  have hkeys : s.cacheKeys = placeKeys s.ancestry := rfl
  rw [hkeys, hnodes, placeKeys_cons, if_pos hplace, List.tail_cons, List.tail_cons]

/-- A selection has a route, unless it is a root. -/
theorem Sound.route? (hf : Sound f roots) (hs : s ∈ f.handed roots) (hop : s.operation? ≠ none)
    (hlegal : ∀ n ∈ s.ancestry, n.isLegal = true)
    (htop : ∀ n ∈ s.ancestry[1]?, n.isPlace = true) :
    ∃ r, Document.route? s = .ok r ∧
      ((r = none ∧ s.documentKey? = none) ∨ ∃ route, r = some route ∧ Route.Of s route) := by
  obtain ⟨operation, hoperation⟩ := Option.ne_none_iff_exists'.mp hop
  obtain ⟨root, hroot, nodes, hnodes, _⟩ := hf.exists_root hs
  have hkeys := cacheKeys_tail hf hs hop
  rw [hnodes, List.tail_cons] at hkeys
  rw [Document.route?, hoperation]
  simp only [hnodes]
  cases nodes with
  | nil =>
      refine ⟨none, rfl, .inl ⟨rfl, ?_⟩⟩
      rw [Selection.documentKey?, hoperation, hkeys]
      cases operation <;> rfl
  | cons first rest =>
      have hplace : first.isPlace = true := htop first (by rw [hnodes]; rfl)
      refine ⟨_, rfl, .inr ⟨{ operation, first, rest }, rfl, ?_, hplace, ?_, hkeys.symm⟩⟩
      · rw [Selection.documentKey?, hoperation, hkeys, placeKeys_cons, if_pos hplace]
        cases operation <;> rfl
      · exact fun n hn => hlegal n (hnodes ▸ List.mem_cons_of_mem _ hn)

/-- Selections in any order compile, to one document for each of their keys. -/
theorem ofArranged_responds (hf : Sound f roots) (hss : ss ⊆ f.handed roots)
    (hg : Selection.Gathered ss) (operationName : Option String) :
    ∃ documents keys, ofArranged ss operationName = .ok documents ∧ keys.Nodup ∧
      (∀ key, key ∈ keys ↔ ∃ s ∈ ss, s.documentKey? = some key) ∧
      List.Forall₂ (Responds ss) keys documents := by
  obtain ⟨rs, hrs, hthere, hback⟩ := mapM_ok fun s hs =>
    Sound.route? hf (hss hs) (hg.operation s hs) (hg.legal s hs) (hg.top s hs)
  have hroutes : ∀ r ∈ rs.filterMap fun r => r, ∃ s ∈ ss, Route.Of s r := by
    intro r hr
    obtain ⟨_, hr, rfl⟩ := List.mem_filterMap.mp hr
    obtain ⟨s, hs, ⟨he, _⟩ | ⟨route, he, hof⟩⟩ := hback _ hr
    · cases he
    · obtain rfl := Option.some.inj he
      exact ⟨s, hs, hof⟩
  have htaken : ∀ s ∈ ss, s.documentKey? ≠ none → ∃ r ∈ rs.filterMap fun r => r, Route.Of s r := by
    intro s hs hkey
    obtain ⟨_, hr, ⟨_, he⟩ | ⟨route, rfl, hof⟩⟩ := hthere s hs
    · exact absurd he hkey
    · exact ⟨route, List.mem_filterMap.mpr ⟨_, hr, rfl⟩, hof⟩
  obtain ⟨keys, hnodup, hkeys, hdocuments⟩ := exists_documents hroutes htaken operationName
  refine ⟨_, keys, ?_, hnodup, hkeys, hdocuments⟩
  rw [ofArranged, hrs]
  rfl

/-! ### Builders -/

theorem root_label {root : Selection} (h : Selection.Forest.IsRoot root) :
    root.node.label = root.node.key.text := by
  rw [Node.label, h.aliasName]
  rfl

/-- Selections of one tree for each operation that have one signature are one. -/
theorem Sound.eq_of_signature (hf : Sound f roots) (hss : ss ⊆ f.handed roots)
    (htree : ∀ s ∈ ss, ∀ t ∈ ss, s.operation? = t.operation? → s.rootNode.id = t.rootNode.id)
    (hundotted : ∀ s ∈ ss, ∀ n ∈ s.ancestry, '.' ∉ n.label.toList) {t : Selection} (hs : s ∈ ss)
    (ht : t ∈ ss) (he : t.signature = s.signature) : t = s := by
  have hall := Selection.labels_of_signature (hundotted t ht) (hundotted s hs) he
  have hlabels := hall
  obtain ⟨root, hroot, nodes, hnodes, htop⟩ := hf.exists_root (hss hs)
  obtain ⟨root', hroot', nodes', hnodes', htop'⟩ := hf.exists_root (hss ht)
  rw [hnodes, hnodes', List.map_cons, List.map_cons, root_label (hf.tops _ hroot),
    root_label (hf.tops _ hroot')] at hlabels
  have hoperation : t.operation? = s.operation? := by
    rw [Selection.operation?, Selection.operation?, htop, htop', (List.cons.inj hlabels).1]
  exact hf.eq_of_labels (hss ht) (hss hs) (htree t ht s hs hoperation) hall

/-- None of them is lost when they are put in order. -/
theorem Sound.mem_arrange_of_undotted (hf : Sound f roots) (hss : ss ⊆ f.handed roots)
    (htree : ∀ s ∈ ss, ∀ t ∈ ss, s.operation? = t.operation? → s.rootNode.id = t.rootNode.id)
    (hundotted : ∀ s ∈ ss, ∀ n ∈ s.ancestry, '.' ∉ n.label.toList) :
    s ∈ arrange ss ↔ s ∈ ss := by
  refine ⟨mem_of_mem_arrange, fun hs => (mem_arrange_of_told fun t ht he => ?_).mpr hs⟩
  exact Sound.eq_of_signature hf hss htree hundotted hs ht he

theorem Sound.mem_arrange (hf : Sound f roots) (hss : ss ⊆ f.handed roots)
    (hg : Selection.Gathered ss) : s ∈ arrange ss ↔ s ∈ ss :=
  Sound.mem_arrange_of_undotted hf hss hg.tree
    fun s hs n hn => Selection.Node.undotted_label (hg.legal s hs n hn)

namespace Builder

/-- Builders that compiled these selections only. -/
inductive Used (handed : List Selection) : Builder → Prop
  | new (capacity : Nat) : Used handed (.new capacity)
  | build {b : Builder} (used : Used handed b) {ss : List Selection} (known : ss ⊆ handed)
    (operationName : Option String) : Used handed (b.build ss operationName).2

/-- What a builder remembers was compiled from the selections of these ids. -/
theorem Used.memo {handed : List Selection} {b : Builder} (h : b.Used handed) :
    ∀ q ∈ b.memo, ∃ ss ⊆ handed, ∃ operationName, q.1.2 = ss.map (·.id) ∧
      ofArranged ss operationName = .ok q.2 := by
  induction h with
  | new capacity => exact fun _ h => absurd h List.not_mem_nil
  | @build b used ss known operationName ih =>
      rw [Builder.build]
      split
      · exact fun q hq => ih q (Recency.mem_of_mem_touch hq)
      · split
        · rename_i documents hdocuments
          intro q hq
          rcases Recency.mem_put.mp (List.mem_of_mem_take hq) with rfl | ⟨hq, _⟩
          · exact ⟨arrange ss, fun s hs => known (mem_of_mem_arrange hs), operationName, rfl,
              hdocuments⟩
          · exact ih q hq
        · exact ih

theorem eq_of_ids {handed : List Selection} (hids : (handed.map (·.id)).Nodup)
    {ts : List Selection} (hss : ss ⊆ handed) (hts : ts ⊆ handed)
    (he : ss.map (·.id) = ts.map (·.id)) : ss = ts := by
  induction ss generalizing ts with
  | nil => exact (List.map_eq_nil_iff.mp he.symm).symm
  | cons s ss ih =>
      cases ts with
      | nil => cases he
      | cons t ts =>
          obtain ⟨hid, hrest⟩ := List.cons.inj he
          obtain ⟨hs, hss⟩ := List.cons_subset.mp hss
          obtain ⟨ht, hts⟩ := List.cons_subset.mp hts
          rw [List.inj_on_of_nodup_map hids hs ht hid, ih hss hts hrest]

/-- A builder returns what compilation gives, under this operation name or another. -/
theorem Used.exists_build {handed : List Selection} {b : Builder} (h : b.Used handed)
    (hids : (handed.map (·.id)).Nodup) (hss : ss ⊆ handed) (operationName : Option String) :
    ∃ compiledName, (b.build ss operationName).1 = ofArranged (arrange ss) compiledName := by
  rw [Builder.build]
  split
  · rename_i documents hmemo
    obtain ⟨ts, hts, compiledName, hsame, hdocuments⟩ := h.memo _ (Recency.mem_of_peek? hmemo)
    have harranged : arrange ss ⊆ handed := fun s hs => hss (mem_of_mem_arrange hs)
    exact ⟨compiledName, eq_of_ids hids harranged hts hsame ▸ hdocuments.symm⟩
  · refine ⟨operationName, ?_⟩
    split
    · rename_i hdocuments
      exact hdocuments.symm
    · rename_i herror
      exact herror.symm

end Builder

/-- A builder compiles gathered selections to one query document, one mutation document and one
subscription document for each top field, as far as they are selected. The paths of its response
are the prefixes of the cache keys of its selections without their root. -/
theorem build_responds {b : Builder} (hf : f.Grown roots) (hb : b.Used (f.handed roots))
    (hss : ss ⊆ f.handed roots) (hg : Selection.Gathered ss) (operationName : Option String) :
    ∃ documents keys, (b.build ss operationName).1 = .ok documents ∧ keys.Nodup ∧
      (∀ key, key ∈ keys ↔ ∃ s ∈ ss, s.documentKey? = some key) ∧
      List.Forall₂ (Responds ss) keys documents := by
  have hmem : ∀ s, s ∈ arrange ss ↔ s ∈ ss := fun s => Sound.mem_arrange hf.sound hss hg
  obtain ⟨compiledName, hbuild⟩ := hb.exists_build hf.sound.ids hss operationName
  obtain ⟨documents, keys, hdocuments, hnodup, hkeys, hall⟩ := ofArranged_responds hf.sound
    (fun s hs => hss ((hmem s).mp hs)) (hg.mono fun s hs => (hmem s).mp hs) compiledName
  simp only [hmem] at hkeys
  refine ⟨documents, keys, hbuild.trans hdocuments, hnodup, hkeys, hall.imp ?_⟩
  intro key d hresponds
  have hpaths := hresponds.paths
  simp only [hmem] at hpaths
  exact ⟨hresponds.operation, hpaths⟩

end

namespace Shelf

def query := ({} : Selection.Forest).newRoot "query" 6
def subscription := query.2.newRoot "subscription" 6
def items := subscription.2.child query.1 (.field "items") none [] false
def first := items.2.child items.1 (.index 0) none [] false
def title := first.2.child first.1 (.field "title") none [] false
def kinds := title.2.child first.1 (.field "$on") none [] false
def book := kinds.2.child kinds.1 (.field "Book") none [] true
def price := book.2.child book.1 (.field "price") (some "euro")
  [("currency", { type := "String", value := .string "EUR" })] false
def added := price.2.child subscription.1 (.field "added") none [] false

def roots : List Selection := [subscription.1, query.1]

def chosen : List Selection := [price.1, added.1, title.1]

/-- The nodes are handed out one after the other. -/
theorem grown : added.2.Grown roots ∧ chosen ⊆ added.2.handed roots := by
  have hroots : subscription.2.Grown roots := .root (.root .empty "query" 6) "subscription" 6
  have hquery : query.1 ∈ subscription.2.handed roots := List.mem_cons_of_mem _ List.mem_cons_self
  obtain ⟨hitems, mitems, sitems⟩ := hroots.ask hquery (.field "items") none [] false
  obtain ⟨hfirst, mfirst, sfirst⟩ := hitems.ask mitems (.index 0) none [] false
  obtain ⟨htitle, mtitle, stitle⟩ := hfirst.ask mfirst (.field "title") none [] false
  obtain ⟨hkinds, mkinds, skinds⟩ := htitle.ask (stitle mfirst) (.field "$on") none [] false
  obtain ⟨hbook, mbook, sbook⟩ := hkinds.ask mkinds (.field "Book") none [] true
  obtain ⟨hprice, mprice, sprice⟩ := hbook.ask mbook (.field "price") (some "euro")
    [("currency", { type := "String", value := .string "EUR" })] false
  have hsubscription := sprice (sbook (skinds (stitle (sfirst (sitems
    (List.mem_cons_self : subscription.1 ∈ subscription.2.handed roots))))))
  obtain ⟨hadded, madded, sadded⟩ := hprice.ask hsubscription (.field "added") none [] false
  refine ⟨hadded, List.cons_subset.mpr ⟨sadded mprice, List.cons_subset.mpr ⟨madded, ?_⟩⟩⟩
  refine List.cons_subset.mpr ⟨?_, List.nil_subset _⟩
  exact sadded (sprice (sbook (skinds mtitle)))

/-- Below a position of a list a field and a branch are selected, next to a subscription. -/
theorem build_chosen : (added.2.Grown roots ∧ (Builder.new 4).Used (added.2.handed roots) ∧
      chosen ⊆ added.2.handed roots ∧ Selection.Gathered chosen) ∧
    ∃ documents keys, ((Builder.new 4).build chosen none).1 = .ok documents ∧ keys.Nodup ∧
      (∀ key, key ∈ keys ↔ ∃ s ∈ chosen, s.documentKey? = some key) ∧
      List.Forall₂ (Responds chosen) keys documents := by
  have hgathered : Selection.Gathered chosen :=
    ⟨by decide +kernel, by decide +kernel, by decide +kernel, by decide +kernel⟩
  exact ⟨⟨grown.1, .new 4, grown.2, hgathered⟩,
    build_responds grown.1 (.new 4) grown.2 hgathered none⟩

example : (grow [price.1.ancestry.tail, title.1.ancestry.tail]).1.responsePaths =
    [["items"], ["items", "euro"], ["items", "title"]] := by
  decide +kernel

end Shelf

end Document
end LazyGraph
