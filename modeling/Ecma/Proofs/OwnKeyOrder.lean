import Mathlib
import Ecma.Object.Basic
import Ecma.Proofs.ArrayIndices

/-!
# The order of own keys

An object is built by storing, changing and removing properties.  A property is
created when it is stored under a key that has none; it keeps its time of creation
until it is removed.  The own keys are the keys of the properties that are there:
the array indices by their numbers, then the other texts and then the symbols, both
by the times of creation.
-/

namespace Ecma

/-! ## Edits of an object -/

/-- One change to the properties of an object. -/
inductive PropertyEdit where
  | store (k : PropertyKey) (d : Descriptor)
  | modify (k : PropertyKey) (f : Descriptor → Descriptor)
  | remove (k : PropertyKey)

namespace PropertyEdit

def apply (o : Object) : PropertyEdit → Object
  | .store k d => o.store k d
  | .modify k f => o.modify k f
  | .remove k => o.remove k

/-- Makes the edits in turn. -/
def run (o : Object) (edits : List PropertyEdit) : Object := edits.foldl apply o

/-- When the property under a key was created, after an edit at the time `n`. -/
def track (k : PropertyKey) (n : ℕ) (created : Option ℕ) : PropertyEdit → Option ℕ
  | .store k' _ => if k'.same k then created.or (some n) else created
  | .modify _ _ => created
  | .remove k' => if k'.same k then none else created

/-- The number of the edit that created the property now under a key, if there is one. -/
def createdAt? (edits : List PropertyEdit) (k : PropertyKey) : Option ℕ :=
  edits.zipIdx.foldl (fun created e ↦ e.1.track k e.2 created) none

theorem createdAt?_concat (edits : List PropertyEdit) (e : PropertyEdit) (k : PropertyKey) :
    createdAt? (edits ++ [e]) k = e.track k edits.length (createdAt? edits k) := by
  simp [createdAt?, List.zipIdx_append]

theorem run_concat (o : Object) (edits : List PropertyEdit) (e : PropertyEdit) :
    run o (edits ++ [e]) = e.apply (run o edits) := by
  simp [run]

end PropertyEdit

/-- The time of the first is before that of the second. -/
def CreatedBefore {κ : Type} (created : κ → Option ℕ) (a b : κ) : Prop :=
  ∃ i j, created a = some i ∧ created b = some j ∧ i < j

theorem CreatedBefore.congr {κ : Type} {created created' : κ → Option ℕ} {a b : κ}
    (h : CreatedBefore created a b) (ha : created' a = created a) (hb : created' b = created b) :
    CreatedBefore created' a b := by
  unfold CreatedBefore
  rw [ha, hb]
  exact h

/-! ## Stores -/

namespace PropertyStore

variable {κ : Type} [BEq κ] [Hashable κ]

/-- The store keeps its keys in the order of their creation, all before the time `n`. -/
structure Dated (p : PropertyStore κ) (created : κ → Option ℕ) (n : ℕ) : Prop where
  valid : p.Valid
  isSome_get? : ∀ k, (p.get? k).isSome = (created k).isSome
  past : ∀ k i, created k = some i → i < n
  ordered : p.keys.Pairwise (CreatedBefore created)

theorem dated_empty (cutover : ℕ) : (empty cutover : PropertyStore κ).Dated (fun _ ↦ none) 0 where
  valid := valid_empty cutover
  isSome_get? _ := rfl
  past := nofun
  ordered := List.Pairwise.nil

variable {p : PropertyStore κ} {created : κ → Option ℕ} {n : ℕ}

theorem Dated.succ (h : p.Dated created n) : p.Dated created (n + 1) :=
  { h with past := fun k i hi ↦ Nat.lt_succ_of_lt (h.past k i hi) }

variable [EquivBEq κ] [LawfulHashable κ]

theorem Dated.modify (h : p.Dated created n) (k : κ) (f : Descriptor → Descriptor) :
    (p.modify k f).Dated created n where
  valid := h.valid.modify k f
  isSome_get? k' := by
    rw [h.valid.get?_modify]
    split
    · rw [Option.isSome_map, h.isSome_get?]
    · exact h.isSome_get? k'
  past := h.past
  ordered := by
    rw [h.valid.keys_modify]
    exact h.ordered

theorem Dated.remove (h : p.Dated created n) (k : κ) :
    (p.remove k).2.Dated (fun k' ↦ if k == k' then none else created k') n where
  valid := h.valid.remove k
  isSome_get? k' := by
    rw [h.valid.get?_remove]
    split
    · rfl
    · exact h.isSome_get? k'
  past k' i hi := by
    split at hi
    · cases hi
    · exact h.past k' i hi
  ordered := by
    rw [h.valid.keys_remove, List.pairwise_filter]
    refine h.ordered.imp fun {a b} hab ha hb ↦ ?_
    rw [BEq.comm, Bool.not_eq_true'] at ha hb
    exact hab.congr (by simp [ha]) (by simp [hb])

/-- A key that is stored anew comes last, and has the latest time. -/
theorem Dated.set (h : p.Dated created n) (k : κ) (d : Descriptor) :
    (p.set k d).Dated (fun k' ↦ if k == k' then (created k').or (some n) else created k')
      (n + 1) where
  valid := h.valid.set k d
  isSome_get? k' := by
    rw [h.valid.get?_set]
    split
    · simp
    · exact h.isSome_get? k'
  past k' i hi := by
    split at hi
    · rcases Option.or_eq_some_iff.1 hi with hold | ⟨-, hnew⟩
      · exact Nat.lt_succ_of_lt (h.past k' i hold)
      · cases hnew
        exact Nat.lt_succ_self n
    · exact Nat.lt_succ_of_lt (h.past k' i hi)
  ordered := by
    -- What is there already keeps its time.
    have hkeep (k' : κ) (hk' : (created k').isSome = true) :
        (if k == k' then (created k').or (some n) else created k') = created k' := by
      obtain ⟨i, hi⟩ := Option.isSome_iff_exists.1 hk'
      simp [hi]
    have hold : p.keys.Pairwise
        (CreatedBefore fun k' ↦ if k == k' then (created k').or (some n) else created k') := by
      refine h.ordered.imp fun {a b} hab ↦ hab.congr (hkeep a ?_) (hkeep b ?_)
      · obtain ⟨i, j, hi, -, -⟩ := hab
        simp [hi]
      · obtain ⟨i, j, -, hj, -⟩ := hab
        simp [hj]
    rw [h.valid.keys_set]
    split
    next => exact hold
    next habsent =>
      refine List.pairwise_append.2 ⟨hold, List.pairwise_singleton _ _, fun a ha b hb ↦ ?_⟩
      obtain rfl := List.mem_singleton.1 hb
      have hpresent : (p.get? a).isSome = true := by
        rw [← h.valid.any_keys, List.any_eq_true]
        exact ⟨a, ha, BEq.rfl⟩
      rw [h.isSome_get?] at hpresent habsent
      obtain ⟨i, hi⟩ := Option.isSome_iff_exists.1 hpresent
      refine ⟨i, n, ?_, ?_, h.past a i hi⟩
      · exact (hkeep a hpresent).trans hi
      · simp [Option.not_isSome_iff_eq_none.1 habsent]

end PropertyStore

/-! ## Objects -/

namespace Object

/-- Both stores keep their keys in the order of their creation. -/
structure Dated (o : Object) (created : PropertyKey → Option ℕ) (n : ℕ) : Prop where
  strings : o.strings.Dated (fun t ↦ created (.string t)) n
  symbols : o.symbols.Dated (fun s ↦ created (.symbol s)) n

/-- One edit keeps the order. -/
theorem Dated.apply {o : Object} {created : PropertyKey → Option ℕ} {n : ℕ}
    (h : o.Dated created n) (e : PropertyEdit) :
    (e.apply o).Dated (fun k ↦ e.track k n (created k)) (n + 1) := by
  cases e with
  | store k d =>
      cases k with
      | string t => exact ⟨h.strings.set t d, h.symbols.succ⟩
      | symbol s => exact ⟨h.strings.succ, h.symbols.set s d⟩
  | modify k f =>
      cases k with
      | string t => exact ⟨(h.strings.modify t f).succ, h.symbols.succ⟩
      | symbol s => exact ⟨h.strings.succ, (h.symbols.modify s f).succ⟩
  | remove k =>
      cases k with
      | string t => exact ⟨(h.strings.remove t).succ, h.symbols.succ⟩
      | symbol s => exact ⟨h.strings.succ, (h.symbols.remove s).succ⟩

/-- So does any sequence of edits of a new object. -/
theorem dated_run (c : ObjectClass) (prototype : Option ObjectRef) (cutover : ℕ)
    (edits : List PropertyEdit) :
    (PropertyEdit.run (new c prototype cutover) edits).Dated (PropertyEdit.createdAt? edits)
      edits.length := by
  induction edits using List.reverseRecOn with
  | nil => exact ⟨PropertyStore.dated_empty cutover, PropertyStore.dated_empty cutover⟩
  | append_singleton edits e ih =>
      rw [PropertyEdit.run_concat, List.length_append, List.length_singleton]
      simpa only [← PropertyEdit.createdAt?_concat] using ih.apply e

/-! ## Own texts -/

theorem map_snd_indexed (texts : List Text) :
    (texts.filterMap indexEntry?).map Prod.snd = texts.filter fun t ↦ t.arrayIndex?.isSome := by
  induction texts with
  | nil => rfl
  | cons t rest ih =>
      cases ht : t.arrayIndex? with
      | none => simp [ht, indexEntry?, ih]
      | some i => simp [ht, indexEntry?, ih]

/-- The own texts are the keys of the store in another order. -/
theorem ownTexts_perm (o : Object) : o.ownTexts.Perm o.strings.keys := by
  have hsorted := (List.mergeSort_perm (o.strings.keys.filterMap indexEntry?)
    fun a b ↦ decide (a.1 ≤ b.1)).map Prod.snd
  rw [map_snd_indexed] at hsorted
  refine (hsorted.append_right _).trans ?_
  simpa using List.filter_append_perm (fun t : Text ↦ t.arrayIndex?.isSome) o.strings.keys

theorem Valid.nodup_ownTexts {o : Object} (h : o.Valid) : o.ownTexts.Nodup :=
  o.ownTexts_perm.nodup_iff.2 h.strings.nodup_keys

theorem Valid.mem_ownTexts {o : Object} (h : o.Valid) (t : Text) :
    t ∈ o.ownTexts ↔ o.hasOwn (.string t) = true := by
  rw [o.ownTexts_perm.mem_iff, h.strings.mem_keys]
  rfl

theorem ownTexts_eq_filterMap (o : Object) :
    o.ownTexts = o.ownKeys.filterMap PropertyKey.text? := by
  have hstrings (l : List Text) : (l.map PropertyKey.string).filterMap PropertyKey.text? = l := by
    induction l with
    | nil => rfl
    | cons t rest ih => simpa [PropertyKey.text?] using ih
  have hsymbols (l : List Symbol) :
      (l.map PropertyKey.symbol).filterMap PropertyKey.text? = [] := by
    simp [PropertyKey.text?]
  rw [ownKeys, List.filterMap_append, hstrings, hsymbols, List.append_nil]

/-! ## Own keys -/

theorem Valid.any_ownKeys {o : Object} (h : o.Valid) (k : PropertyKey) :
    (o.ownKeys.any fun k' ↦ k'.same k) = (o.own? k).isSome := by
  rw [ownKeys, List.any_append, List.any_map, List.any_map]
  cases k with
  | string t =>
      have htexts : o.ownTexts.any (· == t) = (o.own? (.string t)).isSome := by
        rw [o.ownTexts_perm.any_eq]
        exact h.strings.any_keys t
      have hsymbols : (o.symbols.keys.any fun _ ↦ false) = false := by simp
      rw [← Bool.or_false (Option.isSome _), ← htexts, ← hsymbols]
      rfl
  | symbol s =>
      have hsymbols : o.symbols.keys.any (· == s) = (o.own? (.symbol s)).isSome :=
        h.symbols.any_keys s
      have htexts : (o.ownTexts.any fun _ ↦ false) = false := by simp
      rw [← Bool.false_or (Option.isSome _), ← htexts, ← hsymbols]
      rfl

theorem Valid.pairwise_ownKeys {o : Object} (h : o.Valid) :
    o.ownKeys.Pairwise fun k k' ↦ k.same k' = false := by
  rw [ownKeys, List.pairwise_append, List.pairwise_map, List.pairwise_map]
  refine ⟨h.nodup_ownTexts.imp fun hne ↦ ?_, h.symbols.pairwise_keys, ?_⟩
  · exact Bool.eq_false_iff.2 fun hsame ↦ hne (PropertyKey.same_string_iff.1 hsame)
  · intro k hk k' hk'
    obtain ⟨t, -, rfl⟩ := List.mem_map.1 hk
    obtain ⟨s, -, rfl⟩ := List.mem_map.1 hk'
    rfl

/-- The array indices come first, by their numbers; the other texts and then the symbols come by
the times of their creation. -/
inductive Precedes (created : PropertyKey → Option ℕ) : PropertyKey → PropertyKey → Prop
  | indices {t u : Text} {i j : ℕ} (ht : t.arrayIndex? = some i) (hu : u.arrayIndex? = some j)
      (hij : i < j) : Precedes created (.string t) (.string u)
  | indexFirst {t u : Text} {i : ℕ} (ht : t.arrayIndex? = some i) (hu : u.arrayIndex? = none) :
      Precedes created (.string t) (.string u)
  | texts {t u : Text} (ht : t.arrayIndex? = none) (hu : u.arrayIndex? = none)
      (htu : CreatedBefore created (.string t) (.string u)) :
      Precedes created (.string t) (.string u)
  | textFirst (t : Text) (s : Symbol) : Precedes created (.string t) (.symbol s)
  | symbols {r s : Symbol} (hrs : CreatedBefore created (.symbol r) (.symbol s)) :
      Precedes created (.symbol r) (.symbol s)

theorem mem_indexed_iff {e : ℕ × Text} {texts : List Text} :
    e ∈ texts.filterMap indexEntry? ↔ e.2 ∈ texts ∧ e.2.arrayIndex? = some e.1 := by
  obtain ⟨i, t⟩ := e
  simp only [List.mem_filterMap, indexEntry?, Option.map_eq_some_iff, Prod.mk.injEq]
  constructor
  · rintro ⟨u, hu, j, hj, rfl, rfl⟩
    exact ⟨hu, hj⟩
  · rintro ⟨ht, hi⟩
    exact ⟨t, ht, i, hi, rfl, rfl⟩

/-- The entries of the array indices, sorted, go up by their numbers. -/
theorem pairwise_lt_mergeSort {texts : List Text} (h : texts.Nodup) :
    ((texts.filterMap indexEntry?).mergeSort fun a b ↦ decide (a.1 ≤ b.1)).Pairwise
      fun a b ↦ a.1 < b.1 := by
  -- Different texts are the forms of different numbers.
  have hne : (texts.filterMap indexEntry?).Pairwise fun a b ↦ a.1 ≠ b.1 := by
    rw [List.pairwise_filterMap]
    refine h.imp fun {t u} hne a ha b hb heq ↦ hne ?_
    simp only [Option.map_eq_some_iff, indexEntry?] at ha hb
    obtain ⟨i, hi, rfl⟩ := ha
    obtain ⟨j, hj, rfl⟩ := hb
    obtain rfl : i = j := heq
    rw [← (Text.arrayIndex?_eq_some_iff.1 hi).2, (Text.arrayIndex?_eq_some_iff.1 hj).2]
  have hsorted : ((texts.filterMap indexEntry?).mergeSort fun a b ↦ decide (a.1 ≤ b.1)).Pairwise
      fun a b ↦ decide (a.1 ≤ b.1) = true :=
    List.pairwise_mergeSort (by simp; omega) (by simp; omega) _
  have hne' := ((List.mergeSort_perm (texts.filterMap indexEntry?)
    fun a b ↦ decide (a.1 ≤ b.1)).pairwise_iff fun h ↦ Ne.symm h).2 hne
  exact (hsorted.and hne').imp fun h ↦ Nat.lt_of_le_of_ne (of_decide_eq_true h.1) h.2

theorem Dated.pairwise_ownTexts {o : Object} {created : PropertyKey → Option ℕ} {n : ℕ}
    (h : o.Dated created n) :
    o.ownTexts.Pairwise fun t u ↦ Precedes created (.string t) (.string u) := by
  have hmem (e : ℕ × Text) (he : e ∈ (o.strings.keys.filterMap indexEntry?).mergeSort
      fun a b ↦ decide (a.1 ≤ b.1)) : e.2.arrayIndex? = some e.1 :=
    (mem_indexed_iff.1 (List.mem_mergeSort.1 he)).2
  have hnone (t : Text) (ht : t ∈ o.strings.keys.filter fun t ↦ t.arrayIndex?.isNone) :
      t.arrayIndex? = none :=
    Option.isNone_iff_eq_none.1 (List.mem_filter.1 ht).2
  rw [ownTexts, List.pairwise_append, List.pairwise_map]
  refine ⟨?_, ?_, ?_⟩
  · have hlt := pairwise_lt_mergeSort h.strings.valid.nodup_keys
    exact hlt.imp_of_mem fun ha hb hab ↦ .indices (hmem _ ha) (hmem _ hb) hab
  · have hordered := h.strings.ordered.filter fun t ↦ t.arrayIndex?.isNone
    exact hordered.imp_of_mem fun ha hb hab ↦ .texts (hnone _ ha) (hnone _ hb) hab
  · intro t ht u hu
    obtain ⟨e, he, rfl⟩ := List.mem_map.1 ht
    exact .indexFirst (hmem e he) (hnone u hu)

theorem Dated.pairwise_precedes {o : Object} {created : PropertyKey → Option ℕ} {n : ℕ}
    (h : o.Dated created n) : o.ownKeys.Pairwise (Precedes created) := by
  rw [ownKeys, List.pairwise_append, List.pairwise_map, List.pairwise_map]
  refine ⟨h.pairwise_ownTexts, h.symbols.ordered.imp .symbols, ?_⟩
  intro k hk k' hk'
  obtain ⟨t, -, rfl⟩ := List.mem_map.1 hk
  obtain ⟨s, -, rfl⟩ := List.mem_map.1 hk'
  exact .textFirst t s

/-- The own keys of an object that was built by any edits are the keys of its properties, each
once, in their order; and the array indices are the texts of the numbers below their limit. -/
theorem own_keys_are_listed_in_order (c : ObjectClass) (prototype : Option ObjectRef) (cutover : ℕ)
    (edits : List PropertyEdit) :
    let o := PropertyEdit.run (new c prototype cutover) edits
    let created := PropertyEdit.createdAt? edits
    (∀ k, (o.own? k).isSome = (created k).isSome) ∧
      (∀ k, (∃ k' ∈ o.ownKeys, k'.same k = true) ↔ (o.own? k).isSome = true) ∧
      (o.ownKeys.Pairwise fun k k' ↦ k.same k' = false) ∧
      o.ownKeys.Pairwise (Precedes created) ∧
      (∀ t i, t.arrayIndex? = some i ↔ i < 2 ^ 32 - 1 ∧ PropertyKey.index i = .string t) ∧
      ∀ i < 2 ^ 32, PropertyKey.index i =
        .string (Text.ofString (Numeric.ofBinary64 (.ofNat i)).toText) := by
  intro o created
  have hdated : o.Dated created edits.length := dated_run c prototype cutover edits
  have hvalid : o.Valid := ⟨hdated.strings.valid, hdated.symbols.valid⟩
  refine ⟨?_, fun k ↦ by rw [← hvalid.any_ownKeys, List.any_eq_true], hvalid.pairwise_ownKeys,
    hdated.pairwise_precedes, ?_, ?_⟩
  · intro k
    cases k with
    | string t => exact hdated.strings.isSome_get? t
    | symbol s => exact hdated.symbols.isSome_get? s
  · intro t i
    rw [PropertyKey.index, PropertyKey.string.injEq]
    exact Text.arrayIndex?_eq_some_iff
  · intro i hi
    exact PropertyKey.index_eq_toText (Nat.lt_trans hi (by decide))

/-- A text that is removed and stored again comes after the others; one with a zero in front is no
index. -/
theorem own_keys_are_listed_in_order_readded :
    let add (s : String) : PropertyEdit := .store (.ofString s) .generic
    let edits : List PropertyEdit := [add "b", .store (.wellKnown .iterator) .generic, add "10",
      add "a", add "2", add "01", .remove (.ofString "b"), add "10", add "b"]
    let o := PropertyEdit.run (new .object none 9) edits
    o.ownKeys.map PropertyKey.display =
        ["2", "10", "a", "01", "b", "[Symbol(Symbol.iterator)]"] ∧
      o.ownKeys.Pairwise (Precedes (PropertyEdit.createdAt? edits)) := by
  intro add edits o
  have hlisted := own_keys_are_listed_in_order .object none 9 edits
  exact ⟨by cbv, hlisted.2.2.2.1⟩

end Object

end Ecma
