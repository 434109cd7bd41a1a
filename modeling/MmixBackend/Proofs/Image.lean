import MmixBackend.Finite

/-!
# Images of finite sets and maps

A function that keeps the order of keys carries a finite set to the set of the images, and a finite
map to a map on the images. Sets and maps are listed in the order of their keys, so the list of an
image is the list of the images. All that a program can ask of a set or a map goes over with it.

* **`toList_imageSet`**, **`toList_imageMap`** — the lists.
* **`imageSet_ext`**, **`imageMap_ext`** — what it takes to be an image, from which it follows for
  each operation that it can be done before or after.
-/

namespace MmixBackend

variable {α β γ : Type}

/-- A choice that is made alike for the images. -/
theorem filter_images {f : α → α} {p q : α → Bool} (h : ∀ a, q (f a) = p a) (l : List α) :
    (l.map f).filter q = (l.filter p).map f := by
  rw [List.filter_map]
  exact congrArg (List.map f) (List.filter_congr fun a _ => h a)

/-- Steps that go over one by one go over together. -/
theorem foldl_images {δ δ' : Type} {f : α → β} {φ : δ → δ'} {p : δ → α → δ} {q : δ' → β → δ'}
    (h : ∀ c a, q (φ c) (f a) = φ (p c a)) (l : List α) (c : δ) :
    (l.map f).foldl q (φ c) = φ (l.foldl p c) := by
  rw [List.foldl_map]
  exact List.foldl_hom φ h

variable [Ord α]

/-- The function keeps the order of any two elements. -/
class KeepsOrder (f : α → α) : Prop where
  compare_eq : ∀ a b, compare (f a) (f b) = compare a b

section Order

variable [Std.LawfulEqOrd α] {f : α → α} [KeepsOrder f] {a b : α}

/-- A function that keeps the order tells everything apart. -/
theorem KeepsOrder.injective (h : f a = f b) : a = b := by
  have hcmp := KeepsOrder.compare_eq (f := f) a b
  rw [h, Std.ReflOrd.compare_self] at hcmp
  exact Std.LawfulEqOrd.eq_of_compare hcmp.symm

theorem KeepsOrder.apply_eq_iff : f a = f b ↔ a = b := ⟨injective, congrArg f⟩

end Order

section Lists

variable [Std.TransOrd α]

/-- Two ascending lists with the same elements are equal. -/
theorem eq_of_ascending (key : β → α) {l l' : List β}
    (h : l.Pairwise fun x y => compare (key x) (key y) = .lt)
    (h' : l'.Pairwise fun x y => compare (key x) (key y) = .lt) (hmem : ∀ x, x ∈ l ↔ x ∈ l') :
    l = l' := by
  have hnodup : ∀ {l : List β}, l.Pairwise (fun x y => compare (key x) (key y) = .lt) → l.Nodup :=
    fun h => h.imp fun hlt heq => by
      rw [heq, Std.ReflOrd.compare_self] at hlt
      cases hlt
  refine List.Perm.eq_of_pairwise ?_ h h'
    ((List.perm_ext_iff_of_nodup (hnodup h) (hnodup h')).mpr hmem)
  intro x y _ _ hlt hgt
  rw [Std.OrientedOrd.eq_swap (a := key x), hgt] at hlt
  cases hlt

/-- Looking for an entry goes through the list of entries. -/
theorem any_eq_any_toList (m : Std.ExtTreeMap α β) (p : α → β → Bool) :
    m.any p = m.toList.any fun e => p e.1 e.2 := by
  have hfor : m.any p = (forIn (m := Id) m ((none, ()) : Option Bool × Unit) fun e _ =>
      if p e.1 e.2 then ForInStep.done (some true, ()) else .yield (none, ())).1.getD false := by
    obtain ⟨⟨m⟩⟩ := m
    induction m using Quotient.inductionOn
    rfl
  rw [hfor, Std.ExtTreeMap.forIn_eq_forIn_toList]
  induction m.toList with
  | nil => rfl
  | cons e l ih =>
    rw [List.forIn_cons, List.any_cons]
    cases he : p e.1 e.2 with
    | true => rfl
    | false => exact ih

/-- The entries that an image has. -/
theorem ascending_images (f : α → α) [KeepsOrder f] (g : β → γ) (m : Std.ExtTreeMap α β) :
    (m.toList.map fun e => (f e.1, g e.2)).Pairwise fun x y => compare x.1 y.1 = .lt := by
  refine List.pairwise_map.mpr (Std.ExtTreeMap.ordered_keys_toList.imp fun {a b} hlt => ?_)
  rw [KeepsOrder.compare_eq]
  exact hlt

end Lists

variable [Std.TransOrd α]

/-- The set of the images. -/
def imageSet (f : α → α) (s : Std.ExtTreeSet α) : Std.ExtTreeSet α := .ofList (s.toList.map f)

/-- The map with the images for its keys. -/
def imageMap (f : α → α) (g : β → γ) (m : Std.ExtTreeMap α β) : Std.ExtTreeMap α γ :=
  .ofList (m.toList.map fun e => (f e.1, g e.2))

-- ── Sets ─────────────────────────────────────────────────────────────────────

variable [Std.LawfulEqOrd α] [DecidableEq α] {f : α → α} {a b x : α}

section Sets

variable {s s' : Std.ExtTreeSet α}

/-- The image of a set has the images of its members. -/
theorem mem_imageSet : x ∈ imageSet f s ↔ ∃ a ∈ s, f a = x := by
  simp [imageSet, Std.ExtTreeSet.mem_ofList]

/-- A set is the image of another one if it holds the images of its elements and nothing that is
    no image. -/
theorem imageSet_ext (hmem : ∀ a, f a ∈ s' ↔ a ∈ s) (himage : ∀ x ∈ s', ∃ a, f a = x) :
    s' = imageSet f s := by
  refine Std.ExtTreeSet.ext_mem fun x => ?_
  rw [mem_imageSet]
  constructor
  · intro hx
    obtain ⟨a, rfl⟩ := himage x hx
    exact ⟨a, (hmem a).mp hx, rfl⟩
  · rintro ⟨a, ha, rfl⟩
    exact (hmem a).mpr ha

@[simp] theorem imageSet_empty : imageSet f ∅ = ∅ := by
  refine Std.ExtTreeSet.ext_mem fun x => ?_
  simp [mem_imageSet]

@[simp] theorem imageSet_union : imageSet f (s ∪ s') = imageSet f s ∪ imageSet f s' := by
  refine Std.ExtTreeSet.ext_mem fun x => ?_
  simp only [mem_imageSet, Std.ExtTreeSet.mem_union_iff, or_and_right, exists_or]

@[simp] theorem imageSet_insert : imageSet f (s.insert a) = (imageSet f s).insert (f a) := by
  refine Std.ExtTreeSet.ext_mem fun x => ?_
  simp [mem_imageSet, Std.ExtTreeSet.mem_insert, or_and_right, exists_or]

@[simp] theorem imageSet_ofList {l : List α} : imageSet f (.ofList l) = .ofList (l.map f) := by
  refine Std.ExtTreeSet.ext_mem fun x => ?_
  simp [mem_imageSet, Std.ExtTreeSet.mem_ofList]

@[simp] theorem imageSet_insertMany {l : List α} :
    imageSet f (s.insertMany l) = (imageSet f s).insertMany (l.map f) := by
  refine Std.ExtTreeSet.ext_mem fun x => ?_
  simp [mem_imageSet, Std.ExtTreeSet.mem_insertMany_list, or_and_right, exists_or]

variable [KeepsOrder f]

/-- The image of something is in the image of a set only if it is in the set. -/
@[simp] theorem apply_mem_imageSet : f a ∈ imageSet f s ↔ a ∈ s := by
  rw [mem_imageSet]
  constructor
  · rintro ⟨b, hb, heq⟩
    rwa [KeepsOrder.injective heq] at hb
  · intro ha
    exact ⟨a, ha, rfl⟩

/-- The members of the image are in the same order. -/
@[simp] theorem toList_imageSet : (imageSet f s).toList = s.toList.map f := by
  have hsorted : (s.toList.map f).Pairwise fun x y => compare x y = .lt := by
    refine List.pairwise_map.mpr (Std.ExtTreeSet.ordered_toList.imp fun {a b} hlt => ?_)
    rw [KeepsOrder.compare_eq]
    exact hlt
  refine eq_of_ascending (fun x => x) Std.ExtTreeSet.ordered_toList hsorted fun x => ?_
  simp [mem_imageSet]

/-- The image has as many members. -/
@[simp] theorem size_imageSet : (imageSet f s).size = s.size := by
  rw [← Std.ExtTreeSet.length_toList, toList_imageSet, List.length_map,
    Std.ExtTreeSet.length_toList]

@[simp] theorem imageSet_erase : imageSet f (s.erase a) = (imageSet f s).erase (f a) := by
  refine (imageSet_ext ?_ ?_).symm
  · intro b
    simp [Std.ExtTreeSet.mem_erase, KeepsOrder.compare_eq]
  · intro x hx
    obtain ⟨a, -, heq⟩ := mem_imageSet.mp (Std.ExtTreeSet.mem_of_mem_erase hx)
    exact ⟨a, heq⟩

/-- A test that gives the same on images filters the image the same. -/
theorem imageSet_filter {p q : α → Bool} (hpq : ∀ a, q (f a) = p a) :
    imageSet f (s.filter p) = (imageSet f s).filter q := by
  refine (imageSet_ext ?_ ?_).symm
  · intro a
    simp [Std.ExtTreeSet.mem_filter, hpq]
  · intro x hx
    obtain ⟨hx, -⟩ := Std.ExtTreeSet.mem_filter.mp hx
    obtain ⟨a, -, heq⟩ := mem_imageSet.mp hx
    exact ⟨a, heq⟩

end Sets

-- ── Maps ─────────────────────────────────────────────────────────────────────

variable [KeepsOrder f] {g : β → γ} {m : Std.ExtTreeMap α β} {v : β}

/-- The image of a map has the images of its entries. -/
theorem getElem?_imageMap_eq_some {w : γ} :
    (imageMap f g m)[x]? = some w ↔ ∃ a v, m[a]? = some v ∧ f a = x ∧ g v = w := by
  have hdistinct : (m.toList.map fun e => (f e.1, g e.2)).Pairwise
      fun x y => ¬ compare x.1 y.1 = .eq :=
    (ascending_images f g m).imp fun hlt heq => by
      rw [hlt] at heq
      cases heq
  constructor
  · intro h
    have hmem : x ∈ (m.toList.map fun e => (f e.1, g e.2)).map Prod.fst := by
      refine Decidable.byContradiction fun hnot => ?_
      rw [imageMap, Std.ExtTreeMap.getElem?_ofList_of_contains_eq_false (by simpa using hnot)] at h
      cases h
    obtain ⟨_, he, rfl⟩ := List.mem_map.mp hmem
    have hget := Std.ExtTreeMap.getElem?_ofList_of_mem Std.ReflOrd.compare_self hdistinct he
    obtain ⟨⟨a, v⟩, hv, rfl⟩ := List.mem_map.mp he
    rw [imageMap, hget] at h
    exact ⟨a, v, Std.ExtTreeMap.mem_toList_iff_getElem?_eq_some.mp hv, rfl, Option.some.inj h⟩
  · rintro ⟨a, v, hv, rfl, rfl⟩
    refine Std.ExtTreeMap.getElem?_ofList_of_mem Std.ReflOrd.compare_self hdistinct ?_
    exact List.mem_map.mpr ⟨(a, v), Std.ExtTreeMap.mem_toList_iff_getElem?_eq_some.mpr hv, rfl⟩

/-- The entry at an image is the image of the entry. -/
@[simp] theorem getElem?_imageMap : (imageMap f g m)[f a]? = m[a]?.map g := by
  refine Option.ext fun w => ?_
  rw [getElem?_imageMap_eq_some, Option.map_eq_some_iff]
  constructor
  · rintro ⟨b, v, hv, heq, rfl⟩
    rw [KeepsOrder.injective heq] at hv
    exact ⟨v, hv, rfl⟩
  · rintro ⟨v, hv, rfl⟩
    exact ⟨a, v, hv, rfl, rfl⟩

/-- A map is the image of another one if it has the images of its entries and no key that is no
    image. -/
theorem imageMap_ext {m' : Std.ExtTreeMap α γ} (hget : ∀ a, m'[f a]? = m[a]?.map g)
    (himage : ∀ x ∈ m', ∃ a, f a = x) : m' = imageMap f g m := by
  refine Std.ExtTreeMap.ext_getElem? fun x => Option.ext fun w => ?_
  rw [getElem?_imageMap_eq_some]
  constructor
  · intro h
    obtain ⟨a, rfl⟩ := himage x (mem_of_getElem?_eq_some h)
    rw [hget, Option.map_eq_some_iff] at h
    obtain ⟨v, hv, rfl⟩ := h
    exact ⟨a, v, hv, rfl, rfl⟩
  · rintro ⟨a, v, hv, rfl, rfl⟩
    rw [hget, hv, Option.map_some]

theorem exists_of_mem_imageMap (h : x ∈ imageMap f g m) : ∃ a, f a = x := by
  rw [Std.ExtTreeMap.mem_iff_isSome_getElem?, Option.isSome_iff_exists] at h
  obtain ⟨w, hw⟩ := h
  obtain ⟨a, -, -, heq, -⟩ := getElem?_imageMap_eq_some.mp hw
  exact ⟨a, heq⟩

@[simp] theorem apply_mem_imageMap : f a ∈ imageMap f g m ↔ a ∈ m := by
  rw [Std.ExtTreeMap.mem_iff_isSome_getElem?, Std.ExtTreeMap.mem_iff_isSome_getElem?,
    getElem?_imageMap, Option.isSome_map]

@[simp] theorem getD_imageMap : (imageMap f g m).getD (f a) (g v) = g (m.getD a v) := by
  rw [Std.ExtTreeMap.getD_eq_getD_getElem?, getElem?_imageMap, Option.getD_map,
    Std.ExtTreeMap.getD_eq_getD_getElem?]

/-- The entries of the image are in the same order. -/
@[simp] theorem toList_imageMap :
    (imageMap f g m).toList = m.toList.map fun e => (f e.1, g e.2) := by
  refine eq_of_ascending Prod.fst Std.ExtTreeMap.ordered_keys_toList
    (ascending_images f g m) ?_
  rintro ⟨x, w⟩
  rw [Std.ExtTreeMap.mem_toList_iff_getElem?_eq_some, getElem?_imageMap_eq_some, List.mem_map]
  constructor
  · rintro ⟨a, v, hv, rfl, rfl⟩
    exact ⟨(a, v), Std.ExtTreeMap.mem_toList_iff_getElem?_eq_some.mpr hv, rfl⟩
  · rintro ⟨⟨a, v⟩, hv, heq⟩
    cases heq
    exact ⟨a, v, Std.ExtTreeMap.mem_toList_iff_getElem?_eq_some.mp hv, rfl, rfl⟩

@[simp] theorem size_imageMap : (imageMap f g m).size = m.size := by
  rw [← Std.ExtTreeMap.length_toList, toList_imageMap, List.length_map,
    Std.ExtTreeMap.length_toList]

@[simp] theorem keys_imageMap : (imageMap f g m).keys = m.keys.map f := by
  rw [← Std.ExtTreeMap.map_fst_toList_eq_keys, toList_imageMap, List.map_map,
    ← Std.ExtTreeMap.map_fst_toList_eq_keys, List.map_map]
  rfl

@[simp] theorem imageMap_empty : imageMap f g ∅ = ∅ := by
  refine (imageMap_ext ?_ ?_).symm
  · intro a
    simp
  · intro x hx
    exact absurd hx Std.ExtTreeMap.not_mem_empty

@[simp] theorem imageMap_insert :
    imageMap f g (m.insert a v) = (imageMap f g m).insert (f a) (g v) := by
  refine (imageMap_ext ?_ ?_).symm
  · intro b
    rw [Std.ExtTreeMap.getElem?_insert, Std.ExtTreeMap.getElem?_insert, KeepsOrder.compare_eq,
      getElem?_imageMap]
    split <;> rfl
  · intro x hx
    rcases Std.ExtTreeMap.mem_insert.mp hx with heq | hx
    · exact ⟨a, Std.LawfulEqOrd.eq_of_compare heq⟩
    · exact exists_of_mem_imageMap hx

@[simp] theorem imageMap_insertIfNew :
    imageMap f g (m.insertIfNew a v) = (imageMap f g m).insertIfNew (f a) (g v) := by
  refine (imageMap_ext ?_ ?_).symm
  · intro b
    simp only [Std.ExtTreeMap.getElem?_insertIfNew, KeepsOrder.compare_eq, getElem?_imageMap,
      apply_mem_imageMap]
    split <;> rfl
  · intro x hx
    rcases Std.ExtTreeMap.mem_insertIfNew.mp hx with heq | hx
    · exact ⟨a, Std.LawfulEqOrd.eq_of_compare heq⟩
    · exact exists_of_mem_imageMap hx

@[simp] theorem imageMap_erase : imageMap f g (m.erase a) = (imageMap f g m).erase (f a) := by
  refine (imageMap_ext ?_ ?_).symm
  · intro b
    rw [Std.ExtTreeMap.getElem?_erase, Std.ExtTreeMap.getElem?_erase, KeepsOrder.compare_eq,
      getElem?_imageMap]
    split <;> rfl
  · intro x hx
    exact exists_of_mem_imageMap (Std.ExtTreeMap.mem_of_mem_erase hx)

/-- Modifying an entry of the image is taking the image of the modified map. -/
theorem imageMap_modify {h : β → β} {q : γ → γ} (hq : ∀ v, q (g v) = g (h v)) :
    imageMap f g (m.modify a h) = (imageMap f g m).modify (f a) q := by
  refine (imageMap_ext ?_ ?_).symm
  · intro b
    rw [Std.ExtTreeMap.getElem?_modify, Std.ExtTreeMap.getElem?_modify, KeepsOrder.compare_eq,
      getElem?_imageMap, getElem?_imageMap]
    split
    · rw [Option.map_map, Option.map_map]
      exact congrFun (congrArg Option.map (funext hq)) _
    · rfl
  · intro x hx
    exact exists_of_mem_imageMap (Std.ExtTreeMap.mem_modify.mp hx)

/-- Mapping the entries of the image is taking the image of the mapped ones. -/
theorem imageMap_map {δ δ' : Type} {h : α → β → δ} {q : α → γ → δ'} {p : δ → δ'}
    (hq : ∀ a v, q (f a) (g v) = p (h a v)) :
    imageMap f p (m.map h) = (imageMap f g m).map q := by
  refine (imageMap_ext ?_ ?_).symm
  · intro a
    rw [Std.ExtTreeMap.getElem?_map, Std.ExtTreeMap.getElem?_map, getElem?_imageMap,
      Option.map_map, Option.map_map]
    exact congrArg (Option.map · m[a]?) (funext (hq a))
  · intro x hx
    exact exists_of_mem_imageMap (Std.ExtTreeMap.mem_map.mp hx)

/-- Mapping and filtering the entries of the image is taking the image of those that are left. -/
theorem imageMap_filterMap {δ δ' : Type} {h : α → β → Option δ} {q : α → γ → Option δ'}
    {p : δ → δ'} (hq : ∀ a v, q (f a) (g v) = (h a v).map p) :
    imageMap f p (m.filterMap h) = (imageMap f g m).filterMap q := by
  refine (imageMap_ext ?_ ?_).symm
  · intro a
    rw [Std.ExtTreeMap.getElem?_filterMap', Std.ExtTreeMap.getElem?_filterMap', getElem?_imageMap]
    cases m[a]? with
    | none => rfl
    | some v => exact hq a v
  · intro x hx
    exact exists_of_mem_imageMap (Std.ExtTreeMap.mem_of_mem_filterMap hx)

theorem imageMap_filter {p : α → β → Bool} {q : α → γ → Bool} (hpq : ∀ a v, q (f a) (g v) = p a v) :
    imageMap f g (m.filter p) = (imageMap f g m).filter q := by
  refine (imageMap_ext ?_ ?_).symm
  · intro a
    rw [Std.ExtTreeMap.getElem?_filter', Std.ExtTreeMap.getElem?_filter', getElem?_imageMap,
      Option.filter_map]
    exact congrArg (Option.map g) (congrArg (Option.filter · m[a]?) (funext fun v => hpq a v))
  · intro x hx
    exact exists_of_mem_imageMap (Std.ExtTreeMap.mem_of_mem_filter hx)

/-- The image of a map made of a list is made of the images. -/
theorem imageMap_ofList {l : List (α × β)} :
    imageMap f g (.ofList l) = .ofList (l.map fun e => (f e.1, g e.2)) := by
  rw [Std.ExtTreeMap.ofList_eq_foldl, Std.ExtTreeMap.ofList_eq_foldl,
    ← imageMap_empty (f := f) (g := g)]
  exact (foldl_images (fun _ _ => imageMap_insert.symm) l ∅).symm

/-- A test that gives the same on images holds somewhere in the image if it does in the map. -/
theorem any_imageMap {p : α → β → Bool} {q : α → γ → Bool} (hpq : ∀ a v, q (f a) (g v) = p a v) :
    (imageMap f g m).any q = m.any p := by
  rw [any_eq_any_toList, any_eq_any_toList, toList_imageMap, List.any_map]
  exact congrArg m.toList.any (funext fun e => hpq e.1 e.2)

end MmixBackend
