import Mathlib.Data.List.Infix
import LazyGraph.Proofs.Json.Place
import LazyGraph.Proofs.Json.Removal

/-!
Many parts taken from one value, one after the other. The order does not matter, and what stands
neither at the end of a path nor below one is as it was, but for the members and items right below it
at which a path ends.
-/
namespace LazyGraph.Json

variable {v w u x : Json} {place : Place} {places : List Place} {segment : String}
  {path rest : List String} {paths others : List (List String)}

/-! ### The paths that end at a place -/

/-- One of the paths ends at these places. Several texts can name one item of an array. -/
def Marked (v : Json) (paths : List (List String)) (places : List Place) : Prop :=
  ∃ path ∈ paths, v.way? path = some places

/-- One of the paths ends at these places or above them. -/
def Covered (v : Json) (paths : List (List String)) (places : List Place) : Prop :=
  ∃ above, above <+: places ∧ Marked v paths above

instance (v : Json) (paths : List (List String)) (places : List Place) :
    Decidable (Marked v paths places) :=
  inferInstanceAs (Decidable (∃ path ∈ paths, v.way? path = some places))

instance (v : Json) (paths : List (List String)) (places : List Place) :
    Decidable (Covered v paths places) :=
  decidable_of_iff (∃ above ∈ places.inits, Marked v paths above)
    (exists_congr fun _ => and_congr_left' (List.mem_inits _ _))

/-- What is left of the paths that go through a place, below it. -/
def pathsBelow (v : Json) (place : Place) : List (List String) → List (List String)
  | [] => []
  | [] :: paths => pathsBelow v place paths
  | (segment :: rest) :: paths =>
    if v.place? segment = some place then rest :: pathsBelow v place paths
    else pathsBelow v place paths

theorem mem_pathsBelow :
    rest ∈ pathsBelow v place paths ↔
      ∃ segment, segment :: rest ∈ paths ∧ v.place? segment = some place := by
  fun_induction pathsBelow v place paths with
  | case1 => simp
  | case2 paths ih => simp [ih]
  | case3 first below paths h ih =>
      rw [List.mem_cons, ih]
      constructor
      · rintro (rfl | ⟨segment, hmem, hplace⟩)
        · exact ⟨first, List.mem_cons_self, h⟩
        · exact ⟨segment, List.mem_cons_of_mem _ hmem, hplace⟩
      · rintro ⟨segment, hmem, hplace⟩
        rcases List.mem_cons.mp hmem with he | hmem
        · exact .inl (List.cons.inj he).2
        · exact .inr ⟨segment, hmem, hplace⟩
  | case4 first below paths h ih =>
      rw [ih]
      refine exists_congr fun segment => and_congr_left fun hplace => ?_
      rw [List.mem_cons]
      refine (or_iff_right fun he => h ?_).symm
      rw [← (List.cons.inj he).1]
      exact hplace

theorem marked_singleton : Marked v paths [place] ↔ [] ∈ pathsBelow v place paths := by
  rw [mem_pathsBelow]
  constructor
  · rintro ⟨path, hpath, hway⟩
    cases path with
    | nil => cases hway
    | cons segment rest =>
        obtain ⟨_, below, hplace, he, ⟨rfl, _⟩ | ⟨hn, _, _, hbelow⟩⟩ := way?_cons_eq_some_iff.mp hway
        · obtain ⟨rfl, _⟩ := List.cons.inj he
          exact ⟨segment, hpath, hplace⟩
        · have hlength := length_of_way? hbelow
          rw [← (List.cons.inj he).2] at hlength
          exact absurd (List.eq_nil_of_length_eq_zero hlength.symm) hn
  · rintro ⟨segment, hpath, hplace⟩
    exact ⟨[segment], hpath, way?_cons_eq_some_iff.mpr ⟨_, [], hplace, rfl, .inl ⟨rfl, rfl⟩⟩⟩

/-- Below a part at which no path ends, its own paths count. -/
theorem marked_cons (hu : v.child? place = some u) (hn : [] ∉ pathsBelow v place paths) :
    Marked v paths (place :: places) ↔ Marked u (pathsBelow v place paths) places := by
  constructor
  · rintro ⟨path, hpath, hway⟩
    cases path with
    | nil => cases hway
    | cons segment rest =>
        obtain ⟨_, below, hplace, he, hrest⟩ := way?_cons_eq_some_iff.mp hway
        obtain ⟨rfl, rfl⟩ := List.cons.inj he
        have hmem : rest ∈ pathsBelow v place paths := mem_pathsBelow.mpr ⟨segment, hpath, hplace⟩
        rcases hrest with ⟨rfl, _⟩ | ⟨_, t, ht, hbelow⟩
        · exact absurd hmem hn
        · obtain rfl := Option.some.inj (ht.symm.trans hu)
          exact ⟨rest, hmem, hbelow⟩
  · rintro ⟨rest, hrest, hway⟩
    obtain ⟨segment, hpath, hplace⟩ := mem_pathsBelow.mp hrest
    have hne : rest ≠ [] := fun he => hn (he ▸ hrest)
    exact ⟨segment :: rest, hpath,
      way?_cons_eq_some_iff.mpr ⟨_, places, hplace, rfl, .inr ⟨hne, u, hu, hway⟩⟩⟩

/-! ### The kind of a value -/

/-- Both values are objects, both are arrays of one length, or they are one scalar. -/
inductive SameKind : Json → Json → Prop
  | object (fs gs : Fields Json) : SameKind (.object fs) (.object gs)
  | array {items left : List Json} (length : left.length = items.length) :
    SameKind (.array items) (.array left)
  | scalar {v : Json} (whole : v.asObject? = none) (single : v.asArray? = none) : SameKind v v

namespace SameKind

theorem refl (v : Json) : SameKind v v := by
  cases v with
  | object fs => exact .object fs fs
  | array items => exact .array rfl
  | _ => exact .scalar rfl rfl

theorem trans (h : SameKind u v) (h' : SameKind v w) : SameKind u w := by
  cases h with
  | object fs gs =>
      cases h' with
      | object _ hs => exact .object fs hs
      | scalar whole single => cases whole
  | array length =>
      cases h' with
      | array length' => exact .array (length'.trans length)
      | scalar whole single => cases single
  | scalar => exact h'

/-- Segments name the same places. -/
theorem place?_eq (h : SameKind v w) (segment : String) : w.place? segment = v.place? segment := by
  cases h <;> rfl

theorem pathsBelow_eq (h : SameKind v w) (place : Place) (paths : List (List String)) :
    pathsBelow w place paths = pathsBelow v place paths := by
  fun_induction pathsBelow v place paths with
  | case1 => rfl
  | case2 paths ih => exact ih
  | case3 segment rest paths hplace ih =>
      rw [pathsBelow, h.place?_eq, if_pos hplace, ih]
  | case4 segment rest paths hplace ih =>
      rw [pathsBelow, h.place?_eq, if_neg hplace, ih]

end SameKind

theorem InOrder.child? (h : v.InOrder) (hu : v.child? place = some u) : u.InOrder := by
  cases v with
  | object fs =>
      cases place with
      | key name => exact h.get? hu
      | item i => cases hu
  | array items =>
      cases place with
      | key name => cases hu
      | item i => exact h.getElem? hu
  | _ => cases hu

/-! ### One removal -/

/-- What stands at a place when it was taken away: nothing under a key, null for an item. -/
def cleared : Place → Option Json
  | .key _ => none
  | .item _ => some .null

/-- What is left of a part that stood at a place, when a path goes on from there. -/
def remnant (place : Place) : List String → Json → Option Json
  | [], _ => cleared place
  | segment :: rest, u => some (u.removeAt (segment :: rest))

theorem sameKind_removeAt (h : v.InOrder) (path : List String) : SameKind v (v.removeAt path) := by
  cases path with
  | nil => exact .refl v
  | cons segment rest =>
      cases v with
      | object fs =>
          obtain ⟨gs, hgs, _⟩ := object_removeAt (inOrder_object.mp h).1 segment rest
          exact hgs ▸ .object fs gs
      | array items =>
          obtain ⟨left, hleft, hget⟩ := array_removeAt items segment rest
          have hends : ∀ i, left.length ≤ i ↔ items.length ≤ i := by
            intro i
            rw [← List.getElem?_eq_none_iff, ← List.getElem?_eq_none_iff, hget i]
            split
            · exact Option.map_eq_none_iff
            · exact Iff.rfl
          exact hleft ▸ .array
            (Nat.le_antisymm ((hends _).mpr (Nat.le_refl _)) ((hends _).mp (Nat.le_refl _)))
      | _ =>
          rw [removeAt_of_scalar rfl rfl]
          exact .refl _

/-- A removal changes what stands at the place of its first segment, and nothing else. -/
theorem child?_removeAt (h : v.InOrder) (segment : String) (rest : List String) (place : Place) :
    (v.removeAt (segment :: rest)).child? place =
      if v.place? segment = some place then (v.child? place).bind (remnant place rest)
      else v.child? place := by
  cases v with
  | object fs =>
      obtain ⟨gs, hgs, _, hget⟩ := object_removeAt (inOrder_object.mp h).1 segment rest
      rw [hgs]
      cases place with
      | item i => exact (ite_self _).symm
      | key name =>
          have hplace : (Json.object fs).place? segment = some (.key name) ↔ name = segment :=
            ⟨fun e => (Place.key.inj (Option.some.inj e)).symm, fun e => e ▸ rfl⟩
          simp only [hplace, Json.child?, hget name]
          split
          · rename_i hname
            subst hname
            cases rest with
            | nil => cases Fields.get? fs name <;> rfl
            | cons next rest => cases Fields.get? fs name <;> rfl
          · rfl
  | array items =>
      obtain ⟨left, hleft, hget⟩ := array_removeAt items segment rest
      rw [hleft]
      cases place with
      | key name => exact (ite_self _).symm
      | item i =>
          have hplace : (Json.array items).place? segment = some (.item i) ↔
              Text.index? segment = some i := by
            rw [Json.place?, Option.map_eq_some_iff]
            constructor
            · rintro ⟨j, hj, e⟩
              obtain rfl := Place.item.inj e
              exact hj
            · exact fun hi => ⟨i, hi, rfl⟩
          simp only [hplace, Json.child?, hget i]
          split
          · cases rest with
            | nil => cases items[i]? <;> rfl
            | cons next rest => cases items[i]? <;> rfl
          · rfl
  | _ =>
      rw [removeAt_of_scalar rfl rfl]
      rfl

/-! ### Many removals -/

theorem sameKind_foldl_removeAt (h : v.InOrder) (paths : List (List String)) :
    SameKind v (paths.foldl removeAt v) := by
  induction paths generalizing v with
  | nil => exact .refl v
  | cons path paths ih => exact (sameKind_removeAt h path).trans (ih (h.removeAt path))

theorem foldl_removeAt_null (paths : List (List String)) :
    paths.foldl removeAt Json.null = .null := by
  induction paths with
  | nil => rfl
  | cons path paths ih => rw [List.foldl_cons, removeAt_of_scalar rfl rfl, ih]

/-- A place is cleared if a path ends there; else the paths that go on take parts from what stands
there. -/
theorem child?_foldl_removeAt (h : v.InOrder) (paths : List (List String)) (place : Place) :
    (paths.foldl removeAt v).child? place = (v.child? place).bind fun u =>
      if [] ∈ pathsBelow v place paths then cleared place
      else some ((pathsBelow v place paths).foldl removeAt u) := by
  induction paths generalizing v with
  | nil => exact (Option.bind_fun_some _).symm
  | cons path paths ih =>
      cases path with
      | nil => exact ih h
      | cons segment rest =>
          have hsame := (sameKind_removeAt h (segment :: rest)).pathsBelow_eq place paths
          rw [List.foldl_cons, ih (h.removeAt _), hsame, child?_removeAt h, pathsBelow]
          by_cases hplace : v.place? segment = some place
          · rw [if_pos hplace, if_pos hplace, Option.bind_assoc]
            refine congrArg _ (funext fun u => ?_)
            cases rest with
            | nil =>
                rw [if_pos List.mem_cons_self]
                cases place with
                | key name => rfl
                | item i =>
                    show (if _ then _ else some _) = _
                    rw [foldl_removeAt_null]
                    exact ite_self _
            | cons next rest =>
                have hmem : [] ∈ (next :: rest) :: pathsBelow v place paths ↔
                    [] ∈ pathsBelow v place paths := by simp
                simp only [hmem]
                rfl
          · rw [if_neg hplace, if_neg hplace]

theorem child?_of_marked (h : v.InOrder) (hm : Marked v paths [place]) :
    (paths.foldl removeAt v).child? place = (v.child? place).bind fun _ => cleared place := by
  simp only [child?_foldl_removeAt h, if_pos (marked_singleton.mp hm)]

theorem child?_of_not_marked (h : v.InOrder) (hm : ¬ Marked v paths [place]) :
    (paths.foldl removeAt v).child? place =
      (v.child? place).map fun u => (pathsBelow v place paths).foldl removeAt u := by
  simp only [child?_foldl_removeAt h, if_neg fun hn => hm (marked_singleton.mpr hn)]
  exact (Option.map_eq_bind ..).symm

/-! ### What is left -/

/-- What is left of a value from which the parts at some places were taken: a member is gone, null
stands for an item, and at all other places something stands as before. -/
structure Remains (gone : Place → Prop) (v w : Json) : Prop where
  kind : SameKind v w
  members : ∀ name, gone (.key name) → w.child? (.key name) = none
  items : ∀ i, gone (.item i) → (v.child? (.item i)).isSome → w.child? (.item i) = some .null
  others : ∀ place, ¬ gone place → ((w.child? place).isSome ↔ (v.child? place).isSome)

theorem remains_foldl_removeAt (h : v.InOrder) (paths : List (List String)) :
    Remains (fun place => Marked v paths [place]) v (paths.foldl removeAt v) where
  kind := sameKind_foldl_removeAt h paths
  members name hgone := by
    rw [child?_of_marked h hgone]
    exact Option.bind_fun_none _
  items i hgone hthere := by
    obtain ⟨u, hu⟩ := Option.isSome_iff_exists.mp hthere
    rw [child?_of_marked h hgone, hu]
    rfl
  others place hkept := by
    rw [child?_of_not_marked h hkept, Option.isSome_map]

/-- What stands at places that no path ends at or above is there after the removals as well, as far
as no path ends right below it. -/
theorem at?_foldl_removeAt (h : v.InOrder) (free : ¬ Covered v paths places) :
    Option.Rel (Remains fun place => Marked v paths (places ++ [place])) (v.at? places)
      ((paths.foldl removeAt v).at? places) := by
  induction places generalizing v paths with
  | nil => exact .some (remains_foldl_removeAt h paths)
  | cons place places ih =>
      have hkept : ¬ Marked v paths [place] := fun hm =>
        free ⟨[place], List.prefix_append [place] places, hm⟩
      have hn : [] ∉ pathsBelow v place paths := fun hm => hkept (marked_singleton.mpr hm)
      rw [at?, at?, child?_of_not_marked h hkept]
      cases hu : v.child? place with
      | none => exact .none
      | some u =>
          have hbelow : ¬ Covered u (pathsBelow v place paths) places := by
            rintro ⟨above, hprefix, hmarked⟩
            exact free ⟨place :: above, List.cons_prefix_cons.mpr ⟨rfl, hprefix⟩,
              (marked_cons hu hn).mpr hmarked⟩
          have hrel := ih (h.child? hu) hbelow
          simp only [← marked_cons hu hn] at hrel
          exact hrel

/-- Parts are taken from a value with one result in every order. Whatever stands neither at the end
of a path nor below one stays there, and only what stands right below it at the end of a path is
gone, if it was a member, or null, if it was an item. -/
theorem removals_commute (h : v.InOrder) (paths : List (List String)) :
    (∀ others : List (List String), others.Perm paths →
      others.foldl removeAt v = paths.foldl removeAt v) ∧
    ∀ places, ¬ Covered v paths places →
      Option.Rel (Remains fun place => Marked v paths (places ++ [place])) (v.at? places)
        ((paths.foldl removeAt v).at? places) :=
  ⟨fun _ perm => foldl_removeAt_perm h perm, fun _ free => at?_foldl_removeAt h free⟩

/-! ### A friend and a post -/

/-- A user with a friend, and two posts. -/
def page : Json :=
  .object [("posts", .array [.object [("text", .string "a"), ("title", .string "b")], .string "c"]),
    ("user", .object [("friend", .object [("id", .int 2)]), ("id", .int 1)])]

/-- Two texts name the second post, one path ends inside of a post, and one below another one. -/
def pageMarks : List (List String) :=
  [["posts", "1"], ["user", "friend", "id"], ["posts", "+1"], ["posts", "0", "text"],
    ["user", "friend"]]

/-- Of the posts two stay, the second one as null; of the user the friend is gone. -/
theorem removals_commute_page :
    page.InOrder ∧ pageMarks.reverse.Perm pageMarks ∧
    pageMarks.reverse.foldl removeAt page = pageMarks.foldl removeAt page ∧
    ¬ Covered page pageMarks [.key "posts"] ∧ ¬ Covered page pageMarks [.key "user"] ∧
    (∃ posts, (pageMarks.foldl removeAt page).at? [.key "posts"] = some (.array posts) ∧
      posts.length = 2 ∧ posts[1]? = some .null) ∧
    ∃ user, (pageMarks.foldl removeAt page).at? [.key "user"] = some (.object user) ∧
      Fields.get? user "friend" = none ∧ (Fields.get? user "id").isSome := by
  have ordered : page.InOrder := by decide
  have perm : pageMarks.reverse.Perm pageMarks := List.reverse_perm pageMarks
  obtain ⟨same, left⟩ := removals_commute ordered pageMarks
  have hposts : ¬ Covered page pageMarks [.key "posts"] := by decide
  have huser : ¬ Covered page pageMarks [.key "user"] := by decide
  refine ⟨ordered, perm, same _ perm, hposts, huser, ?_, ?_⟩
  · have hrel := left _ hposts
    generalize (pageMarks.foldl removeAt page).at? [.key "posts"] = after at hrel ⊢
    obtain ⟨kind, _, items, _⟩ | _ := hrel
    have hnull := items 1 (by decide) rfl
    cases kind with
    | array length => exact ⟨_, rfl, length, hnull⟩
    | scalar whole single => cases single
  · have hrel := left _ huser
    generalize (pageMarks.foldl removeAt page).at? [.key "user"] = after at hrel ⊢
    obtain ⟨kind, members, _, others⟩ | _ := hrel
    have hgone := members "friend" (by decide)
    have hkept := (others (.key "id") (by decide)).mpr rfl
    cases kind with
    | object fs gs => exact ⟨gs, rfl, hgone, hkept⟩
    | scalar whole single => cases whole

end LazyGraph.Json
