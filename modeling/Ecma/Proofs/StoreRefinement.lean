import Ecma.Property.Store

/-!
# Property stores as ordered association lists

A store answers like one list of entries with pairwise distinct keys, whichever
form it is in.  `Represents` ties a store to its list: the list form is the
list, and the hashed form keeps the keys of the list in its array and the
entries of the list in its map.  Each operation keeps the tie, so it holds after
every sequence of operations, across the move from one form to the other.
-/

namespace Ecma

namespace PropertyStore

variable {κ : Type} [BEq κ]

/-! ## Ordered association lists -/

/-- No key occurs twice. -/
def Distinct (l : List (κ × Descriptor)) : Prop := l.Pairwise fun a b ↦ (a.1 == b.1) = false

def hasKey (k : κ) (e : κ × Descriptor) : Bool := e.1 == k

/-- Changes an entry with the key and keeps any other. -/
def changeAt (k : κ) (f : Descriptor → Descriptor) (e : κ × Descriptor) : κ × Descriptor :=
  if e.1 == k then (e.1, f e.2) else e

@[simp] theorem fst_changeAt (k : κ) (f : Descriptor → Descriptor) (e : κ × Descriptor) :
    (changeAt k f e).1 = e.1 := by
  unfold changeAt
  split <;> rfl

theorem Distinct.map_changeAt {l : List (κ × Descriptor)} (h : Distinct l) (k : κ)
    (f : Descriptor → Descriptor) : Distinct (l.map (changeAt k f)) := by
  unfold Distinct at h ⊢
  rw [List.pairwise_map]
  simpa only [fst_changeAt] using h

theorem Distinct.append {l : List (κ × Descriptor)} (h : Distinct l) {k : κ}
    (hk : l.any (hasKey k) = false) (d : Descriptor) : Distinct (l ++ [(k, d)]) := by
  unfold Distinct
  rw [List.pairwise_append]
  refine ⟨h, List.pairwise_singleton _ _, ?_⟩
  intro a ha b hb
  obtain rfl := List.mem_singleton.1 hb
  simpa [hasKey] using List.any_eq_false.1 hk a ha

theorem Distinct.filter {l : List (κ × Descriptor)} (h : Distinct l)
    (p : κ × Descriptor → Bool) : Distinct (l.filter p) :=
  List.Pairwise.filter p h

/-- Entries in the order in which their keys were added, each key once. -/
structure OrderedEntries (κ : Type) [BEq κ] where
  entries : List (κ × Descriptor)
  distinct : Distinct entries

namespace OrderedEntries

def empty : OrderedEntries κ := ⟨[], List.Pairwise.nil⟩

def get? (l : OrderedEntries κ) (k : κ) : Option Descriptor :=
  (l.entries.find? (hasKey k)).map Prod.snd

/-- Replaces the entry of a key in place, or adds one at the end. -/
def set (l : OrderedEntries κ) (k : κ) (d : Descriptor) : OrderedEntries κ :=
  if h : l.entries.any (hasKey k) then
    ⟨l.entries.map (changeAt k fun _ ↦ d), l.distinct.map_changeAt k _⟩
  else ⟨l.entries ++ [(k, d)], l.distinct.append (Bool.eq_false_iff.2 h) d⟩

def modify (l : OrderedEntries κ) (k : κ) (f : Descriptor → Descriptor) : OrderedEntries κ :=
  ⟨l.entries.map (changeAt k f), l.distinct.map_changeAt k f⟩

def remove (l : OrderedEntries κ) (k : κ) : OrderedEntries κ :=
  ⟨l.entries.filter (!hasKey k ·), l.distinct.filter _⟩

end OrderedEntries

/-! ## Lists of entries -/

theorem find?_eq_map_find? (k : κ) (l : List (κ × Descriptor)) :
    find? k l = (l.find? (hasKey k)).map Prod.snd := by
  induction l with
  | nil => rfl
  | cons e rest ih =>
      obtain ⟨k', d⟩ := e
      by_cases h : k' == k
      · simp [find?, hasKey, h]
      · simpa [find?, hasKey, h] using ih

theorem isSome_find? (k : κ) (l : List (κ × Descriptor)) :
    (find? k l).isSome = l.any (hasKey k) := by
  rw [Bool.eq_iff_iff, find?_eq_map_find?, Option.isSome_map, List.find?_isSome, List.any_eq_true]

theorem find?_eq_none_iff {k : κ} {l : List (κ × Descriptor)} :
    find? k l = none ↔ l.any (hasKey k) = false := by
  rw [← isSome_find?, ← Option.not_isSome_iff_eq_none, Bool.not_eq_true]

theorem find?_congr [EquivBEq κ] {k k' : κ} (hk : k == k') (l : List (κ × Descriptor)) :
    find? k l = find? k' l := by
  induction l with
  | nil => rfl
  | cons e rest ih => rw [find?, find?, BEq.congr_right hk, ih]

theorem find?_of_mem [EquivBEq κ] {l : List (κ × Descriptor)} (h : Distinct l)
    {e : κ × Descriptor} (he : e ∈ l) : find? e.1 l = some e.2 := by
  induction l with
  | nil => exact absurd he List.not_mem_nil
  | cons a rest ih =>
      obtain ⟨hhead, htail⟩ := List.pairwise_cons.1 h
      rcases List.mem_cons.1 he with rfl | he
      · simp [find?]
      · rw [find?, if_neg (by simpa using hhead e he)]
        exact ih htail he

theorem find?_append_singleton (k k' : κ) (d : Descriptor) (l : List (κ × Descriptor)) :
    find? k' (l ++ [(k, d)]) = (find? k' l).or (if k == k' then some d else none) := by
  induction l with
  | nil => simp [find?]
  | cons e rest ih =>
      by_cases h : e.1 == k'
      · simp [find?, h]
      · simpa [find?, h] using ih

/-- In a list with distinct keys only one entry can be meant by a key. -/
theorem hasKey_false_of_hasKey [EquivBEq κ] {a : κ × Descriptor} {rest : List (κ × Descriptor)}
    (h : Distinct (a :: rest)) {k : κ} (ha : a.1 == k) : ∀ b ∈ rest, hasKey k b = false := by
  intro b hb
  have hab : (a.1 == b.1) = false := (List.pairwise_cons.1 h).1 b hb
  rw [BEq.congr_left ha, BEq.comm] at hab
  exact hab

theorem map_changeAt_of_absent {k : κ} {l : List (κ × Descriptor)}
    (h : ∀ b ∈ l, hasKey k b = false) (f : Descriptor → Descriptor) :
    l.map (changeAt k f) = l := by
  have hsame : ∀ b ∈ l, changeAt k f b = b := by
    intro b hb
    have hkey : (b.1 == k) = false := h b hb
    simp [changeAt, hkey]
  rw [List.map_congr_left hsame, List.map_id']

theorem replace_eq_map [EquivBEq κ] {l : List (κ × Descriptor)} (h : Distinct l) (k : κ)
    (d : Descriptor) : replace k d l = l.map (changeAt k fun _ ↦ d) := by
  induction l with
  | nil => rfl
  | cons a rest ih =>
      by_cases ha : a.1 == k
      · have hrest := map_changeAt_of_absent (hasKey_false_of_hasKey h ha) fun _ ↦ d
        simp [replace, changeAt, ha, hrest]
      · simp [replace, changeAt, ha, ih (List.pairwise_cons.1 h).2]

theorem erase_eq_filter [EquivBEq κ] {l : List (κ × Descriptor)} (h : Distinct l) (k : κ) :
    erase k l = l.filter (!hasKey k ·) := by
  induction l with
  | nil => rfl
  | cons a rest ih =>
      by_cases ha : a.1 == k
      · have hrest : rest.filter (!hasKey k ·) = rest := by
          apply List.filter_eq_self.2
          intro b hb
          simp [hasKey_false_of_hasKey h ha b hb]
        rw [erase, if_pos ha, List.filter_cons_of_neg (by simp [hasKey, ha]), hrest]
      · rw [erase, if_neg ha, List.filter_cons_of_pos (by simp [hasKey, ha]),
          ih (List.pairwise_cons.1 h).2]

theorem find?_filter [EquivBEq κ] (k k' : κ) (l : List (κ × Descriptor)) :
    find? k' (l.filter (!hasKey k ·)) = if k == k' then none else find? k' l := by
  induction l with
  | nil => simp [find?]
  | cons a rest ih =>
      by_cases ha : a.1 == k
      · have hk : (a.1 == k') = (k == k') := BEq.congr_left ha
        rw [List.filter_cons_of_neg (by simp [hasKey, ha]), ih, find?, hk]
        split <;> rfl
      · rw [List.filter_cons_of_pos (by simp [hasKey, ha]), find?, ih, find?]
        by_cases hk : a.1 == k'
        · have : (k == k') = false := by
            rw [BEq.comm, ← BEq.congr_left hk]
            exact Bool.eq_false_iff.2 ha
          simp [hk, this]
        · simp [hk]

theorem find?_map_changeAt (k k' : κ) (f : Descriptor → Descriptor) [EquivBEq κ]
    (l : List (κ × Descriptor)) :
    find? k' (l.map (changeAt k f)) = if k == k' then (find? k' l).map f else find? k' l := by
  induction l with
  | nil => simp [find?]
  | cons a rest ih =>
      rw [List.map_cons, find?, fst_changeAt, ih, find?]
      by_cases hk : a.1 == k'
      · rw [if_pos hk, if_pos hk, changeAt, BEq.congr_left hk, BEq.comm]
        split <;> rfl
      · rw [if_neg hk, if_neg hk]

theorem length_filter_of_find? [EquivBEq κ] {k : κ} {d : Descriptor} {l : List (κ × Descriptor)}
    (hl : Distinct l) (hk : find? k l = some d) :
    (l.filter (!hasKey k ·)).length + 1 = l.length := by
  rw [← erase_eq_filter hl]
  clear hl
  induction l with
  | nil => simp [find?] at hk
  | cons a rest ih =>
      by_cases ha : a.1 == k
      · simp [erase, ha]
      · rw [find?, if_neg ha] at hk
        simpa [erase, ha] using ih hk

/-! ## The hashed form -/

variable [Hashable κ]

/-- The map holds the entries of the list and the array its keys in order. -/
structure Holds (map : Std.HashMap κ Descriptor) (order : Array κ) (l : List (κ × Descriptor)) :
    Prop where
  order_eq : order.toList = l.map Prod.fst
  size_eq : map.size = l.length
  get_eq : ∀ k, map[k]? = find? k l

theorem holds_empty : Holds ({} : Std.HashMap κ Descriptor) #[] [] :=
  ⟨rfl, Std.HashMap.size_empty, fun _ ↦ Std.HashMap.getElem?_empty⟩

/-- Every key of the array is in the map, so that listing the entries never stops
early. -/
theorem Holds.entriesFrom_eq [EquivBEq κ] {map : Std.HashMap κ Descriptor} {order : Array κ}
    {l : List (κ × Descriptor)} (h : Holds map order l) (hl : Distinct l) :
    entriesFrom map order.toList = l := by
  rw [h.order_eq]
  have hget : ∀ e ∈ l, map[e.1]? = some e.2 := by
    intro e he
    rw [h.get_eq, find?_of_mem hl he]
  clear h hl
  induction l with
  | nil => rfl
  | cons e rest ih =>
      rw [List.map_cons, entriesFrom, hget e List.mem_cons_self]
      simp [ih fun a ha ↦ hget a (List.mem_cons_of_mem e ha)]

section Holds

variable [EquivBEq κ] [LawfulHashable κ]
  {map : Std.HashMap κ Descriptor} {order : Array κ} {l : List (κ × Descriptor)}

theorem Holds.mem_iff (h : Holds map order l) (k : κ) : k ∈ map ↔ (find? k l).isSome := by
  rw [Std.HashMap.mem_iff_isSome_getElem?, h.get_eq]

theorem Holds.append (h : Holds map order l) {k : κ} (hk : find? k l = none) (d : Descriptor) :
    Holds (map.insert k d) (order.push k) (l ++ [(k, d)]) := by
  refine ⟨?_, ?_, ?_⟩
  · simp [h.order_eq]
  · have hmem : k ∉ map := by simp [h.mem_iff, hk]
    simp [Std.HashMap.size_insert, hmem, h.size_eq]
  · intro k'
    rw [Std.HashMap.getElem?_insert, find?_append_singleton, h.get_eq]
    by_cases hkk : k == k'
    · have hk' : find? k' l = none := by rw [← find?_congr hkk, hk]
      simp [hkk, hk']
    · simp [hkk]

theorem Holds.overwrite (h : Holds map order l) {k : κ} {d' : Descriptor}
    (hk : find? k l = some d') (d : Descriptor) :
    Holds (map.insert k d) order (l.map (changeAt k fun _ ↦ d)) := by
  refine ⟨?_, ?_, ?_⟩
  · simp [h.order_eq]
  · have hmem : k ∈ map := by simp [h.mem_iff, hk]
    simp [Std.HashMap.size_insert, hmem, h.size_eq]
  · intro k'
    rw [Std.HashMap.getElem?_insert, find?_map_changeAt, h.get_eq]
    by_cases hkk : k == k'
    · have hk' : find? k' l = some d' := by rw [← find?_congr hkk, hk]
      simp [hkk, hk']
    · simp [hkk]

theorem Holds.erase (h : Holds map order l) (hl : Distinct l) {k : κ} {d' : Descriptor}
    (hk : find? k l = some d') :
    Holds (map.erase k) (order.filter (· != k)) (l.filter (!hasKey k ·)) := by
  refine ⟨?_, ?_, ?_⟩
  · rw [Array.toList_filter, h.order_eq, List.filter_map]
    rfl
  · have hmem : k ∈ map := by simp [h.mem_iff, hk]
    have hlen := length_filter_of_find? hl hk
    rw [Std.HashMap.size_erase, if_pos hmem, h.size_eq]
    omega
  · intro k'
    rw [Std.HashMap.getElem?_erase, find?_filter, h.get_eq]

/-- The table of a list is built by adding its entries one by one. -/
theorem Holds.foldl_insert (h : Holds map order l) (rest : List (κ × Descriptor))
    (hl : Distinct (l ++ rest)) :
    Holds (rest.foldl (fun map e ↦ map.insert e.1 e.2) map)
      (order ++ (rest.map Prod.fst).toArray) (l ++ rest) := by
  induction rest generalizing map order l with
  | nil => simpa using h
  | cons e rest ih =>
      have habsent : find? e.1 l = none := by
        rw [find?_eq_none_iff, List.any_eq_false]
        intro a ha
        have := (List.pairwise_append.1 hl).2.2 a ha e List.mem_cons_self
        simpa [hasKey] using this
      have hnext := ih (h.append habsent e.2) (by simpa using hl)
      simpa using hnext

end Holds

/-! ## Stores and their lists -/

/-- The form of a store that stands for the list. -/
def Storage.Represents (l : List (κ × Descriptor)) : Storage κ → Prop
  | .list entries => entries = l
  | .hashed map order => Holds map order l

/-- The store stands for the list. -/
structure Represents (p : PropertyStore κ) (l : List (κ × Descriptor)) : Prop where
  distinct : Distinct l
  stored : Storage.Represents l p.storage

theorem represents_empty (cutover : Nat) :
    (empty cutover : PropertyStore κ).Represents OrderedEntries.empty.entries :=
  ⟨List.Pairwise.nil, rfl⟩

theorem Represents.get? {p : PropertyStore κ} {l : List (κ × Descriptor)} (h : p.Represents l)
    (k : κ) : p.get? k = find? k l := by
  obtain ⟨cutover, entries | ⟨map, order⟩⟩ := p
  · obtain rfl : entries = l := h.stored
    rfl
  · exact h.stored.get_eq k

theorem Represents.size {p : PropertyStore κ} {l : List (κ × Descriptor)} (h : p.Represents l) :
    p.size = l.length := by
  obtain ⟨cutover, entries | ⟨map, order⟩⟩ := p
  · obtain rfl : entries = l := h.stored
    rfl
  · exact h.stored.size_eq

theorem Represents.toList [EquivBEq κ] {p : PropertyStore κ} {l : List (κ × Descriptor)}
    (h : p.Represents l) : p.toList = l := by
  obtain ⟨cutover, entries | ⟨map, order⟩⟩ := p
  · exact h.stored
  · exact Holds.entriesFrom_eq h.stored h.distinct

section Represents

variable [EquivBEq κ] [LawfulHashable κ] {p : PropertyStore κ} {l : List (κ × Descriptor)}

theorem Represents.overwrite (h : p.Represents l) {k : κ} {d' : Descriptor}
    (hk : find? k l = some d') (d : Descriptor) :
    (p.overwrite k d).Represents (l.map (changeAt k fun _ ↦ d)) := by
  refine ⟨h.distinct.map_changeAt k _, ?_⟩
  obtain ⟨cutover, entries | ⟨map, order⟩⟩ := p
  · obtain rfl : entries = l := h.stored
    exact replace_eq_map h.distinct k d
  · exact Holds.overwrite h.stored hk d

theorem Represents.append (h : p.Represents l) {k : κ} (hk : find? k l = none) (d : Descriptor) :
    (p.append k d).Represents (l ++ [(k, d)]) := by
  refine ⟨h.distinct.append (find?_eq_none_iff.1 hk) d, ?_⟩
  obtain ⟨cutover, entries | ⟨map, order⟩⟩ := p
  · obtain rfl : entries = l := h.stored
    by_cases hc : cutover ≤ entries.length
    · -- The list is moved to a table before the new entry goes in.
      have hmoved := holds_empty.foldl_insert entries (by simpa using h.distinct)
      have hnext := Holds.append hmoved hk d
      simpa [PropertyStore.append, hc, hash, Storage.Represents] using hnext
    · simp [PropertyStore.append, hc, Storage.Represents]
  · exact Holds.append h.stored hk d

theorem Represents.modify (h : p.Represents l) (k : κ) (f : Descriptor → Descriptor) :
    (p.modify k f).Represents (l.map (changeAt k f)) := by
  unfold PropertyStore.modify
  rw [h.get? k]
  cases hk : find? k l with
  | none =>
      have habsent : ∀ b ∈ l, hasKey k b = false := by
        intro b hb
        simpa using List.any_eq_false.1 (find?_eq_none_iff.1 hk) b hb
      simpa only [map_changeAt_of_absent habsent] using h
  | some d =>
      have hsame : l.map (changeAt k f) = l.map (changeAt k fun _ ↦ f d) := by
        apply List.map_congr_left
        intro e he
        unfold changeAt
        split
        next hek =>
          have hd : find? e.1 l = some e.2 := find?_of_mem h.distinct he
          rw [find?_congr hek, hk] at hd
          cases hd
          rfl
        next => rfl
      rw [hsame]
      exact h.overwrite hk (f d)

theorem Represents.set (h : p.Represents l) (k : κ) (d : Descriptor) :
    (p.set k d).Represents
      (if l.any (hasKey k) then l.map (changeAt k fun _ ↦ d) else l ++ [(k, d)]) := by
  unfold PropertyStore.set PropertyStore.contains
  rw [h.get? k, isSome_find?]
  split
  next hk =>
    rw [← isSome_find?] at hk
    obtain ⟨d', hd'⟩ := Option.isSome_iff_exists.1 hk
    exact h.overwrite hd' d
  next hk => exact h.append (find?_eq_none_iff.2 (Bool.eq_false_iff.2 hk)) d

theorem Represents.remove (h : p.Represents l) (k : κ) :
    (p.remove k).1 = find? k l ∧ (p.remove k).2.Represents (l.filter (!hasKey k ·)) := by
  have hkeep : find? k l = none → l.filter (!hasKey k ·) = l := by
    intro hk
    apply List.filter_eq_self.2
    intro b hb
    simpa using List.any_eq_false.1 (find?_eq_none_iff.1 hk) b hb
  obtain ⟨cutover, entries | ⟨map, order⟩⟩ := p
  · obtain rfl : entries = l := h.stored
    cases hk : find? k entries with
    | none => simpa [PropertyStore.remove, hk, hkeep hk] using h
    | some d =>
        simp only [PropertyStore.remove, hk, true_and]
        exact ⟨h.distinct.filter _, erase_eq_filter h.distinct k⟩
  · have hget : map[k]? = find? k l := h.stored.get_eq k
    cases hk : find? k l with
    | none =>
        rw [hk] at hget
        simpa [PropertyStore.remove, hget, hkeep hk] using h
    | some d =>
        rw [hk] at hget
        simp only [PropertyStore.remove, hget, true_and]
        exact ⟨h.distinct.filter _, Holds.erase h.stored h.distinct hk⟩

end Represents

/-! ## Look-ups after a change -/

/-- The store stands for some list of entries with distinct keys, as every store
does that is built by the operations. -/
def Valid (p : PropertyStore κ) : Prop := ∃ l, p.Represents l

theorem valid_empty (cutover : Nat) : (empty cutover : PropertyStore κ).Valid :=
  ⟨_, represents_empty cutover⟩

section Valid

variable [EquivBEq κ] [LawfulHashable κ] {p : PropertyStore κ}

theorem get?_congr {k k' : κ} (hk : k == k') (p : PropertyStore κ) : p.get? k = p.get? k' := by
  obtain ⟨cutover, entries | ⟨map, order⟩⟩ := p
  · exact find?_congr hk entries
  · exact Std.HashMap.getElem?_congr hk

theorem Valid.set (h : p.Valid) (k : κ) (d : Descriptor) : (p.set k d).Valid := by
  obtain ⟨l, hl⟩ := h
  exact ⟨_, hl.set k d⟩

theorem Valid.modify (h : p.Valid) (k : κ) (f : Descriptor → Descriptor) :
    (p.modify k f).Valid := by
  obtain ⟨l, hl⟩ := h
  exact ⟨_, hl.modify k f⟩

theorem Valid.remove (h : p.Valid) (k : κ) : (p.remove k).2.Valid := by
  obtain ⟨l, hl⟩ := h
  exact ⟨_, (hl.remove k).2⟩

theorem Valid.get?_set (h : p.Valid) (k k' : κ) (d : Descriptor) :
    (p.set k d).get? k' = if k == k' then some d else p.get? k' := by
  obtain ⟨l, hl⟩ := h
  rw [(hl.set k d).get?, hl.get?]
  split
  next hk =>
    rw [find?_map_changeAt]
    split
    next hkk =>
      rw [← find?_congr hkk, Option.map_eq_some_iff]
      rw [← isSome_find?] at hk
      obtain ⟨d', hd'⟩ := Option.isSome_iff_exists.1 hk
      exact ⟨d', hd', rfl⟩
    next => rfl
  next hk =>
    rw [find?_append_singleton]
    split
    next hkk =>
      have habsent : find? k' l = none := by
        rw [← find?_congr hkk]
        exact find?_eq_none_iff.2 (Bool.eq_false_iff.2 hk)
      simp [habsent]
    next => simp

theorem Valid.get?_modify (h : p.Valid) (k k' : κ) (f : Descriptor → Descriptor) :
    (p.modify k f).get? k' = if k == k' then (p.get? k').map f else p.get? k' := by
  obtain ⟨l, hl⟩ := h
  rw [(hl.modify k f).get?, hl.get?, find?_map_changeAt]

theorem Valid.keys_modify (h : p.Valid) (k : κ) (f : Descriptor → Descriptor) :
    (p.modify k f).keys = p.keys := by
  obtain ⟨l, hl⟩ := h
  rw [keys, keys, (hl.modify k f).toList, hl.toList, List.map_map]
  exact List.map_congr_left fun e _ ↦ fst_changeAt k f e

/-- A key that is present keeps its place, any other comes last. -/
theorem Valid.keys_set (h : p.Valid) (k : κ) (d : Descriptor) :
    (p.set k d).keys = if (p.get? k).isSome then p.keys else p.keys ++ [k] := by
  obtain ⟨l, hl⟩ := h
  rw [keys, keys, (hl.set k d).toList, hl.toList, hl.get?, isSome_find?]
  split
  · rw [List.map_map]
    exact List.map_congr_left fun e _ ↦ fst_changeAt k _ e
  · rw [List.map_append, List.map_singleton]

theorem Valid.keys_remove (h : p.Valid) (k : κ) :
    (p.remove k).2.keys = p.keys.filter fun k' ↦ !k' == k := by
  obtain ⟨l, hl⟩ := h
  rw [keys, keys, (hl.remove k).2.toList, hl.toList, List.filter_map]
  rfl

omit [LawfulHashable κ] in
/-- Two places of the order hold different keys. -/
theorem Valid.pairwise_keys (h : p.Valid) : p.keys.Pairwise fun a b ↦ (a == b) = false := by
  obtain ⟨l, hl⟩ := h
  rw [keys, hl.toList, List.pairwise_map]
  exact hl.distinct

omit [LawfulHashable κ] in
theorem Valid.any_keys (h : p.Valid) (k : κ) : p.keys.any (· == k) = (p.get? k).isSome := by
  obtain ⟨l, hl⟩ := h
  rw [keys, hl.toList, hl.get?, isSome_find?, List.any_map]
  rfl

theorem Valid.get?_remove (h : p.Valid) (k k' : κ) :
    (p.remove k).2.get? k' = if k == k' then none else p.get? k' := by
  obtain ⟨l, hl⟩ := h
  rw [(hl.remove k).2.get?, hl.get?, find?_filter]

end Valid

section LawfulKeys

variable [LawfulBEq κ] {p : PropertyStore κ}

theorem Valid.nodup_keys (h : p.Valid) : p.keys.Nodup :=
  h.pairwise_keys.imp ne_of_beq_false

theorem Valid.mem_keys (h : p.Valid) (k : κ) : k ∈ p.keys ↔ (p.get? k).isSome = true := by
  simp [← h.any_keys]

end LawfulKeys

/-! ## Sequences of operations -/

/-- What can be done to a store. -/
inductive Operation (κ : Type) where
  | set (k : κ) (d : Descriptor)
  | modify (k : κ) (f : Descriptor → Descriptor)
  | remove (k : κ)

namespace Operation

/-- Does an operation; the answer is the entry that it finds. -/
def apply (p : PropertyStore κ) : Operation κ → Option Descriptor × PropertyStore κ
  | .set k d => (p.get? k, p.set k d)
  | .modify k f => (p.get? k, p.modify k f)
  | .remove k => p.remove k

omit [Hashable κ] in
def applyEntries (l : OrderedEntries κ) : Operation κ → Option Descriptor × OrderedEntries κ
  | .set k d => (l.get? k, l.set k d)
  | .modify k f => (l.get? k, l.modify k f)
  | .remove k => (l.get? k, l.remove k)

/-- Does operations in turn and collects the answers. -/
def run (p : PropertyStore κ) : List (Operation κ) → List (Option Descriptor) × PropertyStore κ
  | [] => ([], p)
  | op :: rest =>
    let (answer, p) := op.apply p
    let (answers, p) := run p rest
    (answer :: answers, p)

def runEntries (l : OrderedEntries κ) :
    List (Operation κ) → List (Option Descriptor) × OrderedEntries κ
  | [] => ([], l)
  | op :: rest =>
    let (answer, l) := op.applyEntries l
    let (answers, l) := runEntries l rest
    (answer :: answers, l)

variable [EquivBEq κ] [LawfulHashable κ]

theorem apply_represents {p : PropertyStore κ} {l : OrderedEntries κ} (h : p.Represents l.entries)
    (op : Operation κ) : (op.apply p).1 = (op.applyEntries l).1 ∧
      (op.apply p).2.Represents (op.applyEntries l).2.entries := by
  have hget (k : κ) : p.get? k = l.get? k := by
    rw [h.get?, find?_eq_map_find?, OrderedEntries.get?]
  cases op with
  | set k d =>
      refine ⟨hget k, ?_⟩
      have hset := h.set k d
      simp only [apply, applyEntries, OrderedEntries.set]
      split at hset
      next hk => simpa [hk] using hset
      next hk => simpa [hk] using hset
  | modify k f => exact ⟨hget k, h.modify k f⟩
  | remove k =>
      obtain ⟨hanswer, hleft⟩ := h.remove k
      exact ⟨by rw [apply, hanswer, ← h.get?, hget, applyEntries], hleft⟩

theorem run_represents {p : PropertyStore κ} {l : OrderedEntries κ} (h : p.Represents l.entries)
    (ops : List (Operation κ)) : (run p ops).1 = (runEntries l ops).1 ∧
      (run p ops).2.Represents (runEntries l ops).2.entries := by
  induction ops generalizing p l with
  | nil => exact ⟨rfl, h⟩
  | cons op rest ih =>
      obtain ⟨hanswer, hnext⟩ := apply_represents h op
      obtain ⟨hanswers, hlast⟩ := ih hnext
      exact ⟨by simp [run, runEntries, hanswer, hanswers], hlast⟩

end Operation

/-- The store gives the answers of the list, and no key of its order is missing
from its map. -/
structure AnswersLike (p : PropertyStore κ) (l : OrderedEntries κ) : Prop where
  get? : ∀ k, p.get? k = l.get? k
  size : p.size = l.entries.length
  toList : p.toList = l.entries
  keys : p.keys = l.entries.map Prod.fst
  complete : ∀ map order, p.storage = .hashed map order →
    order.toList = p.keys ∧ ∀ k ∈ order, k ∈ map

theorem Represents.answersLike [EquivBEq κ] [LawfulHashable κ] {p : PropertyStore κ}
    {l : OrderedEntries κ} (h : p.Represents l.entries) : p.AnswersLike l where
  get? k := by rw [h.get?, find?_eq_map_find?, OrderedEntries.get?]
  size := h.size
  toList := h.toList
  keys := by rw [PropertyStore.keys, h.toList]
  complete := by
    intro map order hp
    have hholds : Holds map order l.entries := by
      have hstored := h.stored
      rwa [hp] at hstored
    refine ⟨by rw [hholds.order_eq, PropertyStore.keys, h.toList], ?_⟩
    intro k hk
    rw [← Array.mem_toList_iff, hholds.order_eq] at hk
    obtain ⟨e, he, rfl⟩ := List.mem_map.1 hk
    simp [hholds.mem_iff, find?_of_mem h.distinct he]

/-- Whatever its cutover, a store gives the answers of one ordered list of
entries with distinct keys, to the operations and to every question after them;
so two stores with different cutovers cannot be told apart. -/
theorem run_refines_orderedEntries [EquivBEq κ] [LawfulHashable κ] (ops : List (Operation κ))
    (cutover cutover' : Nat) :
    let run := Operation.run (empty cutover) ops
    let other := Operation.run (empty cutover') ops
    let expected := Operation.runEntries .empty ops
    run.1 = expected.1 ∧ run.2.AnswersLike expected.2 ∧ other.1 = run.1 ∧
      (∀ k, other.2.get? k = run.2.get? k) ∧ other.2.size = run.2.size ∧
      other.2.toList = run.2.toList ∧ other.2.keys = run.2.keys := by
  intro run other expected
  obtain ⟨hanswers, hlast⟩ := Operation.run_represents (represents_empty cutover) ops
  obtain ⟨hanswers', hlast'⟩ := Operation.run_represents (represents_empty cutover') ops
  have hp := hlast.answersLike
  have hp' := hlast'.answersLike
  exact ⟨hanswers, hp, hanswers'.trans hanswers.symm,
    fun k ↦ (hp'.get? k).trans (hp.get? k).symm, hp'.size.trans hp.size.symm,
    hp'.toList.trans hp.toList.symm, hp'.keys.trans hp.keys.symm⟩

/-- With a cutover of one the second key moves the store to a table; the key
that is removed and set again comes last. -/
theorem run_refines_orderedEntries_reinserted :
    let a := Text.ofString "a"
    let b := Text.ofString "b"
    (Operation.run (empty 1)
      [.set a .generic, .set b .generic, .remove a, .set a .generic]).2.keys = [b, a] := by
  intro a b
  have h := run_refines_orderedEntries
    [.set a .generic, .set b .generic, .remove a, .set a .generic] 1 9
  rw [h.2.1.keys]
  decide

end PropertyStore

end Ecma
