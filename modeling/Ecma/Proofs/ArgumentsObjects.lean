import Ecma.Proofs.ArrayIndices
import Ecma.Proofs.CallScopes

/-!
# The arguments object of a sloppy call

Which indices of the arguments object are bound, and to which parameters: the
last of those with one name, as far as there are arguments.
-/

namespace Ecma

/-! ## Which parameters are bound -/

namespace Arguments

theorem mem_mappedFrom {count i : Nat} {p : String} {seen : List String}
    {entries : List (String × Nat)} :
    (p, i) ∈ mappedFrom count seen entries ↔ i < count ∧ p ∉ seen ∧
      ∃ before after, entries = before ++ (p, i) :: after ∧ p ∉ before.map Prod.fst := by
  induction entries generalizing seen with
  | nil => simp [mappedFrom]
  | cons e rest ih =>
      obtain ⟨name, j⟩ := e
      -- The first entry is the one looked for, or stands before it under another name.
      have hsplit : (∃ before after, (name, j) :: rest = before ++ (p, i) :: after ∧
          p ∉ before.map Prod.fst) ↔ (name = p ∧ j = i) ∨ (p ≠ name ∧
            ∃ before after, rest = before ++ (p, i) :: after ∧ p ∉ before.map Prod.fst) := by
        constructor
        · rintro ⟨before, after, heq, hp⟩
          cases before with
          | nil =>
              cases heq
              exact .inl ⟨rfl, rfl⟩
          | cons e before =>
              cases heq
              simp only [List.map_cons, List.mem_cons, not_or] at hp
              exact .inr ⟨hp.1, before, after, rfl, hp.2⟩
        · rintro (⟨rfl, rfl⟩ | ⟨hne, before, after, rfl, hp⟩)
          · exact ⟨[], rest, rfl, by simp⟩
          · exact ⟨(name, j) :: before, after, rfl, by simp [hne, hp]⟩
      rw [hsplit, mappedFrom]
      split
      next hseen =>
        have hname : name ∈ seen := by simpa using hseen
        rw [ih]
        grind
      next hseen =>
        have hname : name ∉ seen := by simpa using hseen
        split
        next hcount =>
          rw [ih]
          grind
        next hcount =>
          rw [List.mem_cons, ih]
          grind

/-- Of the parameters with one name the last one is bound, if it has an argument. -/
theorem mem_mapped {params : List String} {count i : Nat} {p : String} :
    (p, i) ∈ mapped params count ↔
      params[i]? = some p ∧ i < count ∧ p ∉ params.drop (i + 1) := by
  have hfirst : params.zipIdx.map Prod.fst = params := List.zipIdx_map_fst 0 params
  rw [mapped, mem_mappedFrom]
  -- The parameters are walked from the last one, so what the walk has passed comes later.
  constructor
  · rintro ⟨hi, -, before, after, heq, hp⟩
    have hzip : params.zipIdx = after.reverse ++ (p, i) :: before.reverse := by
      simpa using congrArg List.reverse heq
    have hentry : params.zipIdx[after.length]? = some (p, i) := by simp [hzip]
    have hdrop : params.drop (after.length + 1) = (before.map Prod.fst).reverse := by
      rw [← hfirst, ← List.map_drop, hzip]
      simp [List.drop_append]
    rw [List.getElem?_zipIdx] at hentry
    obtain ⟨q, hq, hqi⟩ := Option.map_eq_some_iff.1 hentry
    obtain ⟨rfl, rfl⟩ := Prod.mk.inj hqi
    rw [Nat.zero_add] at hi ⊢
    refine ⟨hq, hi, ?_⟩
    rw [hdrop, List.mem_reverse]
    exact hp
  · rintro ⟨hentry, hi, hp⟩
    obtain ⟨hlt, hget⟩ := List.getElem?_eq_some_iff.1 hentry
    have hlt' : i < params.zipIdx.length := by simpa using hlt
    have hzip : params.zipIdx = params.zipIdx.take i ++ (p, i) :: params.zipIdx.drop (i + 1) := by
      have hcons := List.drop_eq_getElem_cons hlt'
      rw [List.getElem_zipIdx, hget, Nat.zero_add] at hcons
      rw [← hcons, List.take_append_drop]
    refine ⟨hi, List.not_mem_nil, (params.zipIdx.drop (i + 1)).reverse,
      (params.zipIdx.take i).reverse, ?_, ?_⟩
    · simpa using congrArg List.reverse hzip
    · rw [List.map_reverse, List.mem_reverse, List.map_drop, hfirst]
      exact hp

/-! ## The arguments object as it is made -/

theorem boundTo?_baseData (prototype : ObjectRef) (cutover : Nat) (args : List Value)
    (k : PropertyKey) : (baseData prototype cutover args).boundTo? k = none := by
  have hconforms :
      (baseData prototype cutover args).Conforms (·.form.boundTo? = none) unboundHost :=
    conforms_baseData (fun _ _ _ _ ↦ rfl) prototype cutover args
  cases hd : (baseData prototype cutover args).own? k with
  | none => simp [Object.boundTo?, hd]
  | some d => rw [Object.boundTo?_of_own? hd, hconforms.own k d hd]

theorem boundTo?_storeMapped (s : ScopeRef) {entries : List (String × Nat)} {data : Object}
    (hdata : data.Valid) (hentries : ∀ p q i, (p, i) ∈ entries → (q, i) ∈ entries → p = q)
    (i : Nat) (x : ScopeRef × String) :
    (storeMapped s entries data).boundTo? (.index i) = some x ↔
      (∃ p, (p, i) ∈ entries ∧ x = (s, p)) ∨
        ((∀ p, (p, i) ∉ entries) ∧ data.boundTo? (.index i) = some x) := by
  induction entries generalizing data with
  | nil => simp [storeMapped]
  | cons e rest ih =>
      obtain ⟨name, j⟩ := e
      have hrest : ∀ p q i, (p, i) ∈ rest → (q, i) ∈ rest → p = q := fun p q i hp hq ↦
        hentries p q i (List.mem_cons_of_mem _ hp) (List.mem_cons_of_mem _ hq)
      have hstore := hdata.boundTo?_store (.index j) (.index i) (.bound s name true true)
      have ih := ih (hdata.store (.index j) (.bound s name true true)) hrest
      change (storeMapped s rest (data.store (.index j) (.bound s name true true))).boundTo? _ = _
        ↔ _
      rw [ih, hstore]
      by_cases hji : j = i
      · subst hji
        rw [if_pos (PropertyKey.same_self _)]
        have hname (p : String) (hp : (p, j) ∈ (name, j) :: rest) : p = name :=
          hentries p name j hp List.mem_cons_self
        constructor
        · rintro (⟨p, hp, rfl⟩ | ⟨-, hx⟩)
          · exact .inl ⟨p, List.mem_cons_of_mem _ hp, rfl⟩
          · exact .inl ⟨name, List.mem_cons_self, (Option.some.inj hx).symm⟩
        · rintro (⟨p, hp, rfl⟩ | ⟨habsent, -⟩)
          · cases hname p hp
            by_cases hmem : (name, j) ∈ rest
            · exact .inl ⟨name, hmem, rfl⟩
            · refine .inr ⟨fun q hq ↦ hmem ?_, rfl⟩
              rwa [hname q (List.mem_cons_of_mem _ hq)] at hq
          · exact absurd List.mem_cons_self (habsent name)
      · rw [if_neg (mt PropertyKey.index_same_index.1 hji)]
        have hmem (p : String) : (p, i) ∈ (name, j) :: rest ↔ (p, i) ∈ rest := by
          simp [Ne.symm hji]
        simp only [hmem]

/-- An index is bound to the parameter in its place, unless a later one has the same
name or there is no argument for it. -/
theorem boundTo?_mappedData {prototype : ObjectRef} {cutover : Nat} {callee : ObjectRef}
    {params : List String} {args : List Value} {s : ScopeRef} {i : Nat} {x : ScopeRef × String} :
    (mappedData prototype cutover callee params args s).boundTo? (.index i) = some x ↔
      ∃ p, x = (s, p) ∧ params[i]? = some p ∧ i < args.length ∧ p ∉ params.drop (i + 1) := by
  have hbase : (baseData prototype cutover args).Conforms Descriptor.IsComplete unboundHost :=
    conforms_baseData Descriptor.isComplete_data prototype cutover args
  have hmapped := conforms_storeMapped (Descriptor.isComplete_bound s) (mapped params args.length)
    hbase
  have hcallee : (PropertyKey.ofString "callee").same (.index i) = false :=
    PropertyKey.ofString_same_index (c := 'c') (by decide) (by decide) i
  have hentries (p q : String) (j : Nat) (hp : (p, j) ∈ mapped params args.length)
      (hq : (q, j) ∈ mapped params args.length) : p = q :=
    Option.some.inj ((mem_mapped.1 hp).1.symm.trans (mem_mapped.1 hq).1)
  rw [mappedData, hmapped.valid.boundTo?_store, hcallee, if_neg Bool.false_ne_true,
    boundTo?_storeMapped s hbase.valid hentries, boundTo?_baseData]
  constructor
  · rintro (⟨p, hp, rfl⟩ | ⟨-, hx⟩)
    · exact ⟨p, rfl, mem_mapped.1 hp⟩
    · cases hx
  · rintro ⟨p, rfl, hp⟩
    exact .inl ⟨p, mem_mapped.2 hp, rfl⟩

end Arguments

end Ecma
