import Mathlib.Data.List.AList
import Mathlib.Order.Lattice

/-!
# Associative containers in iteration order

An ordered map is a list of entries with strictly increasing keys, so that
walking the entries is walking the map. An unordered map is Mathlib's
association list: its keys are distinct and its entries stand in an order that
`reorder` may change at will, as a rehash does. Both are read through the same
`List.dlookup`, and no lookup depends on where an entry stands.
-/

namespace Containers

universe u v

/-- A map whose entries stand in strictly increasing key order. -/
structure OrderedMap (κ : Type u) [LinearOrder κ] (β : Type v) where
  /-- The entries, in iteration order. -/
  entries : List (Σ _ : κ, β)
  /-- Iteration meets every key once, smallest first. -/
  sorted : entries.Pairwise fun a b => a.1 < b.1
  deriving DecidableEq

namespace OrderedMap

variable {κ : Type u} [LinearOrder κ] {β : Type v}

/-- The map without entries. -/
def empty : OrderedMap κ β := ⟨[], List.Pairwise.nil⟩

instance : Inhabited (OrderedMap κ β) := ⟨empty⟩

/-- The value stored under a key. -/
def lookup (k : κ) (m : OrderedMap κ β) : Option β := m.entries.dlookup k

/-- Sorted entries have distinct keys. -/
theorem nodupKeys (m : OrderedMap κ β) : m.entries.NodupKeys :=
  List.nodupKeys_iff_pairwise.mpr (m.sorted.imp ne_of_lt)

@[simp] theorem lookup_empty (k : κ) : (empty : OrderedMap κ β).lookup k = none := rfl

/-- An entry of the iteration is exactly a stored value. -/
theorem mem_entries_iff {m : OrderedMap κ β} {k : κ} {v : β} :
    ⟨k, v⟩ ∈ m.entries ↔ m.lookup k = some v :=
  (List.mem_dlookup_iff m.nodupKeys).symm

/-- Insertion at the place the key order gives, replacing an equal key. -/
def insertEntries (k : κ) (v : β) : List (Σ _ : κ, β) → List (Σ _ : κ, β)
  | [] => [⟨k, v⟩]
  | ⟨a, w⟩ :: l =>
    if k < a then ⟨k, v⟩ :: ⟨a, w⟩ :: l
    else if k = a then ⟨k, v⟩ :: l
    else ⟨a, w⟩ :: insertEntries k v l

private theorem mem_insertEntries {k : κ} {v : β} {e : Σ _ : κ, β} {l : List (Σ _ : κ, β)}
    (h : e ∈ insertEntries k v l) : e = ⟨k, v⟩ ∨ e ∈ l := by
  induction l with
  | nil => exact Or.inl (by simpa [insertEntries] using h)
  | cons a l ih =>
    simp only [insertEntries] at h
    split at h
    · exact List.mem_cons.mp h
    · split at h
      · exact (List.mem_cons.mp h).imp_right (List.mem_cons_of_mem _)
      · rcases List.mem_cons.mp h with rfl | h
        · exact Or.inr (List.mem_cons_self ..)
        · exact (ih h).imp_right (List.mem_cons_of_mem _)

private theorem sorted_insertEntries (k : κ) (v : β) {l : List (Σ _ : κ, β)}
    (h : l.Pairwise fun a b => a.1 < b.1) :
    (insertEntries k v l).Pairwise fun a b => a.1 < b.1 := by
  induction l with
  | nil => exact List.pairwise_singleton _ _
  | cons a l ih =>
    obtain ⟨ha, hl⟩ := List.pairwise_cons.mp h
    simp only [insertEntries]
    split
    · rename_i hlt
      refine List.pairwise_cons.mpr ⟨?_, h⟩
      intro e he
      rcases List.mem_cons.mp he with rfl | he
      · exact hlt
      · exact hlt.trans (ha e he)
    · split
      · rename_i heq
        refine List.pairwise_cons.mpr ⟨fun e he => ?_, hl⟩
        exact heq ▸ ha e he
      · rename_i hnlt hne
        refine List.pairwise_cons.mpr ⟨fun e he => ?_, ih hl⟩
        rcases mem_insertEntries he with rfl | he
        · exact lt_of_le_of_ne (not_lt.mp hnlt) (Ne.symm hne)
        · exact ha e he

private theorem dlookup_insertEntries_self (k : κ) (v : β) (l : List (Σ _ : κ, β)) :
    (insertEntries k v l).dlookup k = some v := by
  induction l with
  | nil => exact List.dlookup_cons_eq ..
  | cons a l ih =>
    simp only [insertEntries]
    split
    · exact List.dlookup_cons_eq ..
    · split
      · exact List.dlookup_cons_eq ..
      · rename_i hne
        rw [List.dlookup_cons_ne _ _ hne]
        exact ih

private theorem dlookup_insertEntries_ne {k k' : κ} (h : k' ≠ k) (v : β) (l : List (Σ _ : κ, β)) :
    (insertEntries k v l).dlookup k' = l.dlookup k' := by
  induction l with
  | nil => exact List.dlookup_cons_ne _ _ h
  | cons a l ih =>
    simp only [insertEntries]
    split
    · exact List.dlookup_cons_ne _ _ h
    · split
      · rename_i heq
        rw [List.dlookup_cons_ne _ _ h, List.dlookup_cons_ne _ a (heq ▸ h)]
      · by_cases he : k' = a.1
        · obtain ⟨a, w⟩ := a
          obtain rfl : k' = a := he
          rw [List.dlookup_cons_eq, List.dlookup_cons_eq]
        · rw [List.dlookup_cons_ne _ _ he, List.dlookup_cons_ne _ _ he, ih]

/-- Store a value, replacing what the key held before. -/
def insert (k : κ) (v : β) (m : OrderedMap κ β) : OrderedMap κ β :=
  ⟨insertEntries k v m.entries, sorted_insertEntries k v m.sorted⟩

@[simp] theorem lookup_insert (k : κ) (v : β) (m : OrderedMap κ β) :
    (m.insert k v).lookup k = some v := dlookup_insertEntries_self ..

/-- Inserting leaves the other keys alone. -/
theorem lookup_insert_ne {k k' : κ} (h : k' ≠ k) (v : β) (m : OrderedMap κ β) :
    (m.insert k v).lookup k' = m.lookup k' := dlookup_insertEntries_ne h ..

/-- Drop the entry of a key. -/
def erase (k : κ) (m : OrderedMap κ β) : OrderedMap κ β :=
  ⟨m.entries.kerase k, m.sorted.sublist (List.kerase_sublist k m.entries)⟩

@[simp] theorem lookup_erase (k : κ) (m : OrderedMap κ β) : (m.erase k).lookup k = none :=
  List.dlookup_kerase k m.nodupKeys

/-- Erasing leaves the other keys alone. -/
theorem lookup_erase_ne {k k' : κ} (h : k' ≠ k) (m : OrderedMap κ β) :
    (m.erase k).lookup k' = m.lookup k' := List.dlookup_kerase_ne h

/-- Rewrite every value, dropping the entries for which the rewrite has none. -/
def filterMapEntries (f : β → Option β) (l : List (Σ _ : κ, β)) : List (Σ _ : κ, β) :=
  l.filterMap fun e => (f e.2).map fun v => ⟨e.1, v⟩

omit [LinearOrder κ] in
private theorem filterMapEntries_keys (f : β → Option β) (l : List (Σ _ : κ, β)) :
    (filterMapEntries f l).keys.Sublist l.keys := by
  induction l with
  | nil => exact List.Sublist.refl _
  | cons a l ih =>
    simp only [filterMapEntries, List.filterMap_cons]
    cases f a.2 with
    | none => exact ih.cons _
    | some v => exact ih.cons_cons _

private theorem pairwise_keys {l : List (Σ _ : κ, β)} :
    l.Pairwise (fun a b => a.1 < b.1) ↔ l.keys.Pairwise (· < ·) := by
  rw [List.keys, List.pairwise_map]

private theorem sorted_filterMapEntries (f : β → Option β) {l : List (Σ _ : κ, β)}
    (h : l.Pairwise fun a b => a.1 < b.1) :
    (filterMapEntries f l).Pairwise fun a b => a.1 < b.1 :=
  pairwise_keys.mpr ((pairwise_keys.mp h).sublist (filterMapEntries_keys f l))

/-- Rewrite the values of a map in one walk; an entry whose rewrite is `none` is erased. -/
def filterMap (f : β → Option β) (m : OrderedMap κ β) : OrderedMap κ β :=
  ⟨filterMapEntries f m.entries, sorted_filterMapEntries f m.sorted⟩

/-- Filtering a map is filtering what each key leads to. -/
theorem lookup_filterMap (f : β → Option β) (m : OrderedMap κ β) (k : κ) :
    (m.filterMap f).lookup k = (m.lookup k).bind f := by
  apply Option.ext
  intro v
  rw [← mem_entries_iff]
  simp only [filterMap, filterMapEntries, List.mem_filterMap, Option.map_eq_some_iff,
    Option.bind_eq_some_iff, ← mem_entries_iff]
  constructor
  · rintro ⟨⟨a, w⟩, hw, v', hv, he⟩
    cases he
    exact ⟨w, hw, hv⟩
  · rintro ⟨w, hw, hv⟩
    exact ⟨⟨k, w⟩, hw, v, hv, rfl⟩

/-- Two walks that may erase come to one. -/
theorem filterMap_filterMap (f g : β → Option β) (m : OrderedMap κ β) :
    (m.filterMap f).filterMap g = m.filterMap fun v => (f v).bind g := by
  simp only [filterMap, filterMapEntries, OrderedMap.mk.injEq, List.filterMap_filterMap]
  refine List.filterMap_congr fun e _ => ?_
  cases f e.2 <;> rfl

/-- Rewrite every value in place. -/
def mapValues (f : β → β) (m : OrderedMap κ β) : OrderedMap κ β :=
  ⟨m.entries.map fun e => ⟨e.1, f e.2⟩, List.pairwise_map.mpr m.sorted⟩

@[simp] theorem mapValues_empty (f : β → β) : mapValues f (empty : OrderedMap κ β) = empty := rfl

/-- A rewriting in place and a walk that may erase can change places. -/
theorem mapValues_filterMap {f f' : β → Option β} {g : β → β}
    (h : ∀ v, (f v).map g = f' (g v)) (m : OrderedMap κ β) :
    mapValues g (m.filterMap f) = (mapValues g m).filterMap f' := by
  simp only [filterMap, mapValues, OrderedMap.mk.injEq, filterMapEntries, List.map_filterMap,
    List.filterMap_map, Option.map_map]
  refine List.filterMap_congr fun e _ => ?_
  rw [Function.comp_apply, ← h, Option.map_map]
  rfl

/-- Mapping the values is mapping what each key leads to. -/
theorem lookup_mapValues (f : β → β) (m : OrderedMap κ β) (k : κ) :
    (mapValues f m).lookup k = (m.lookup k).map f :=
  List.dlookup_map₂ (f := fun _ => f) k

/-- Mapping the values commutes with inserting. -/
theorem mapValues_insert (f : β → β) (k : κ) (v : β) (m : OrderedMap κ β) :
    mapValues f (m.insert k v) = (mapValues f m).insert k (f v) := by
  have hentries : ∀ l : List (Σ _ : κ, β), (insertEntries k v l).map (fun e => ⟨e.1, f e.2⟩) =
      insertEntries k (f v) (l.map fun e => ⟨e.1, f e.2⟩) := by
    intro l
    induction l with
    | nil => rfl
    | cons a l ih =>
      simp only [insertEntries, List.map_cons]
      split
      · rfl
      · split
        · rfl
        · rw [List.map_cons, ih]
  simp only [mapValues, insert, hentries]

/-- Mapping the values commutes with erasing. -/
theorem mapValues_erase (f : β → β) (k : κ) (m : OrderedMap κ β) :
    mapValues f (m.erase k) = (mapValues f m).erase k := by
  simp only [mapValues, erase, List.kerase, List.eraseP_map]
  rfl

end OrderedMap

/-- A map whose iteration order is not specified. -/
abbrev UnorderedMap (κ : Type u) (β : Type v) : Type max u v := AList fun _ : κ => β

namespace UnorderedMap

variable {κ : Type u} {β : Type v}

/-- Rewrite every value in place. -/
def mapValues (f : β → β) (m : UnorderedMap κ β) : UnorderedMap κ β :=
  ⟨m.entries.map fun e => ⟨e.1, f e.2⟩, m.nodupKeys.map₂ fun _ => f⟩

variable [DecidableEq κ]

/-- The entries of a table are what its keys lead to. -/
theorem mem_entries_iff {m : UnorderedMap κ β} {k : κ} {v : β} :
    ⟨k, v⟩ ∈ m.entries ↔ m.lookup k = some v :=
  (List.mem_dlookup_iff m.nodupKeys).symm

/-- The keys of a table are those that lead somewhere. -/
theorem mem_keys_iff {m : UnorderedMap κ β} {k : κ} : k ∈ m.keys ↔ ∃ v, m.lookup k = some v := by
  rw [← AList.mem_keys, ← AList.lookup_isSome, Option.isSome_iff_exists]

/-- Rewrite the value of one key in place. -/
def modify (k : κ) (f : β → β) (m : UnorderedMap κ β) : UnorderedMap κ β :=
  ⟨m.entries.map fun e => ⟨e.1, if e.1 = k then f e.2 else e.2⟩,
    m.nodupKeys.map₂ fun a v => if a = k then f v else v⟩

/-- Mapping the values of a table is mapping what each key leads to. -/
theorem lookup_mapValues (f : β → β) (m : UnorderedMap κ β) (k : κ) :
    (mapValues f m).lookup k = (m.lookup k).map f :=
  List.dlookup_map₂ (f := fun _ => f) k

/-- Modifying a key changes what that key leads to. -/
theorem lookup_modify (k : κ) (f : β → β) (m : UnorderedMap κ β) (k' : κ) :
    (modify k f m).lookup k' = (m.lookup k').map fun v => if k' = k then f v else v :=
  List.dlookup_map₂ (f := fun a v => if a = k then f v else v) k'

@[simp] theorem lookup_modify_self (k : κ) (f : β → β) (m : UnorderedMap κ β) :
    (modify k f m).lookup k = (m.lookup k).map f := by
  rw [lookup_modify]
  simp only [if_true]

/-- Modifying a key leaves the other keys alone. -/
theorem lookup_modify_ne {k k' : κ} (h : k' ≠ k) (f : β → β) (m : UnorderedMap κ β) :
    (modify k f m).lookup k' = m.lookup k' := by
  rw [lookup_modify]
  simp only [h, if_false, Option.map_id']

@[simp] theorem keys_modify (k : κ) (f : β → β) (m : UnorderedMap κ β) :
    (modify k f m).keys = m.keys := by
  simp only [AList.keys, List.keys, modify, List.map_map, Function.comp_def]

omit [DecidableEq κ] in
@[simp] theorem mapValues_mapValues (f g : β → β) (m : UnorderedMap κ β) :
    mapValues g (mapValues f m) = mapValues (fun v => g (f v)) m := by
  apply AList.ext
  simp only [mapValues, List.map_map, Function.comp_def]

/-- A rewriting of all values and one of a single value may change places. -/
theorem mapValues_modify {f g : β → β} {h : β → β} (hfg : ∀ v, h (f v) = g (h v)) (k : κ)
    (m : UnorderedMap κ β) : mapValues h (modify k f m) = modify k g (mapValues h m) := by
  apply AList.ext
  simp only [mapValues, modify, List.map_map]
  refine List.map_congr_left fun e _ => ?_
  simp only [Function.comp_apply, Sigma.mk.injEq, heq_eq_eq, true_and]
  split
  · exact hfg e.2
  · rfl

omit [DecidableEq κ] in
@[simp] theorem keys_mapValues (f : β → β) (m : UnorderedMap κ β) :
    (mapValues f m).keys = m.keys := by
  simp only [AList.keys, List.keys, mapValues, List.map_map, Function.comp_def]

@[simp] theorem modify_id (k : κ) (m : UnorderedMap κ β) : modify k id m = m := by
  apply AList.ext
  simp only [modify, id_eq, ite_self, List.map_id']

private theorem entries_erase (k : κ) (m : UnorderedMap κ β) :
    (m.erase k).entries = m.entries.kerase k := rfl

/-- Mapping the values of a table commutes with erasing. -/
theorem mapValues_erase (f : β → β) (k : κ) (m : UnorderedMap κ β) :
    mapValues f (m.erase k) = (mapValues f m).erase k := by
  apply AList.ext
  simp only [mapValues, entries_erase, List.kerase, List.eraseP_map]
  rfl

private theorem keys_collect (m : UnorderedMap κ β) {order : List κ}
    (h : ∀ k ∈ order, k ∈ m.keys) :
    (order.filterMap fun k => (m.lookup k).map fun v => (⟨k, v⟩ : Σ _ : κ, β)).keys = order := by
  induction order with
  | nil => rfl
  | cons k order ih =>
    obtain ⟨v, hv⟩ := mem_keys_iff.mp (h k (List.mem_cons_self ..))
    simp only [List.filterMap_cons, hv, Option.map_some, List.keys_cons]
    rw [ih fun k hk => h k (List.mem_cons_of_mem _ hk)]

/-- Let the iteration follow the given order of the keys; an order that is not
one of this map's keys changes nothing. -/
def reorder (order : List κ) (m : UnorderedMap κ β) : UnorderedMap κ β :=
  if h : order.Perm m.keys then
    ⟨order.filterMap fun k => (m.lookup k).map fun v => ⟨k, v⟩, by
      rw [List.NodupKeys, keys_collect m fun k hk => h.mem_iff.mp hk]
      exact h.nodup_iff.mpr m.keys_nodup⟩
  else m

/-- Iteration order is invisible to lookups. -/
@[simp] theorem lookup_reorder (order : List κ) (m : UnorderedMap κ β) (k : κ) :
    (reorder order m).lookup k = m.lookup k := by
  unfold reorder
  split
  · rename_i h
    apply Option.ext
    intro v
    rw [← mem_entries_iff, ← mem_entries_iff]
    simp only [List.mem_filterMap, Option.map_eq_some_iff]
    constructor
    · rintro ⟨a, _, w, hw, he⟩
      cases he
      exact mem_entries_iff.mpr hw
    · intro hv
      have hv := mem_entries_iff.mp hv
      exact ⟨k, h.mem_iff.mpr (mem_keys_iff.mpr ⟨v, hv⟩), v, hv, rfl⟩
  · rfl

/-- Mapping the values of a table commutes with inserting. -/
theorem mapValues_insert (f : β → β) (k : κ) (v : β) (m : UnorderedMap κ β) :
    mapValues f (m.insert k v) = (mapValues f m).insert k (f v) := by
  have herase := congrArg AList.entries (mapValues_erase f k m)
  apply AList.ext
  simp only [mapValues, entries_erase] at herase
  simp only [mapValues, AList.entries_insert, List.map_cons, herase]

/-- Mapping the values of a table commutes with rehashing it. -/
theorem mapValues_reorder (f : β → β) (order : List κ) (m : UnorderedMap κ β) :
    mapValues f (reorder order m) = reorder order (mapValues f m) := by
  apply AList.ext
  unfold reorder
  simp only [keys_mapValues]
  split
  · simp only [mapValues, List.map_filterMap]
    refine List.filterMap_congr fun k _ => ?_
    have hlookup := lookup_mapValues f m k
    simp only [mapValues] at hlookup
    rw [hlookup, Option.map_map, Option.map_map]
    rfl
  · rfl

end UnorderedMap

end Containers
