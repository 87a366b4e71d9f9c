import Ecma.Tree.Declarations
import Mathlib.Data.List.Induction
import Mathlib.Data.List.Nodup

/-!
# What the analysis of declarations finds

A place is the way down to a part of a script: the number of a statement in its
list, of a part in its statement, and so on; what stands in the head of a
statement comes before its parts.  Places are ordered as the source is written.
The analysis of a list of statements gives the names and functions that are
declared there, in the order of their places: of the `var` names, which may stand
at any depth outside functions, the first of each name, of the functions the last
of each name, and of the lexical names all.
-/

namespace Ecma

/-! ## Places -/

/-- The way from a list of statements down to a part of it. -/
abbrev Place := List ℕ

namespace Place

/-- The first place stands before the second one in the source. -/
def Before (p q : Place) : Prop := List.Lex (· < ·) p q

abbrev After (p q : Place) : Prop := q.Before p

theorem before_cons_iff {i j : ℕ} {p q : Place} :
    Before (i :: p) (j :: q) ↔ i < j ∨ i = j ∧ Before p q := by
  constructor
  · rintro (_ | hij | hpq)
    · exact .inl hij
    · exact .inr ⟨rfl, hpq⟩
  · rintro (hij | ⟨rfl, hpq⟩)
    · exact .rel hij
    · exact .cons hpq

theorem Before.asymm {p q : Place} (h : Before p q) : ¬ Before q p := by
  induction h with
  | nil => exact nofun
  | rel hij =>
      rw [before_cons_iff]
      omega
  | cons _ ih =>
      rw [before_cons_iff]
      simpa using ih

end Place

open Place

/-! ## Lists in source order -/

/-- The list gives what occurs, from the first place to the last one. -/
def Lists {α : Type} (occurs : Place → α → Prop) (l : List α) : Prop :=
  ∃ entries : List (Place × α), entries.map Prod.snd = l ∧
    entries.Pairwise (fun a b ↦ a.1.Before b.1) ∧ ∀ p a, (p, a) ∈ entries ↔ occurs p a

namespace Lists

variable {α : Type} {occurs occurs' : Place → α → Prop} {l l' : List α}

theorem congr (h : Lists occurs l) (hiff : ∀ p a, occurs p a ↔ occurs' p a) : Lists occurs' l := by
  obtain ⟨entries, hvalues, hordered, hmem⟩ := h
  exact ⟨entries, hvalues, hordered, fun p a ↦ (hmem p a).trans (hiff p a)⟩

theorem exists_entries (h : Lists occurs l) :
    ∃ entries : List (Place × α), entries.map Prod.snd = l ∧
      entries.Pairwise (fun a b ↦ a.1.Before b.1) ∧ occurs = fun p a ↦ (p, a) ∈ entries := by
  obtain ⟨entries, hvalues, hordered, hmem⟩ := h
  refine ⟨entries, hvalues, hordered, ?_⟩
  funext p a
  exact propext (hmem p a).symm

theorem mem_iff (h : Lists occurs l) (a : α) : a ∈ l ↔ ∃ p, occurs p a := by
  obtain ⟨entries, rfl, -, hmem⟩ := h
  simp [← hmem]

theorem singleton (p : Place) (a : α) : Lists (fun q b ↦ q = p ∧ b = a) [a] :=
  ⟨[(p, a)], rfl, List.pairwise_singleton _ _, fun q b ↦ by simp⟩

theorem ofOption (a? : Option α) : Lists (fun p b ↦ p = [] ∧ a? = some b) a?.toList := by
  cases a? with
  | none => exact ⟨[], rfl, List.Pairwise.nil, by simp⟩
  | some a => exact (singleton [] a).congr fun p b ↦ by rw [Option.some_inj, eq_comm (a := a)]

theorem append (h : Lists occurs l) (h' : Lists occurs' l')
    (hbefore : ∀ p a q b, occurs p a → occurs' q b → p.Before q) :
    Lists (fun p a ↦ occurs p a ∨ occurs' p a) (l ++ l') := by
  obtain ⟨entries, rfl, hordered, hmem⟩ := h
  obtain ⟨entries', rfl, hordered', hmem'⟩ := h'
  refine ⟨entries ++ entries', List.map_append, List.pairwise_append.2 ⟨hordered, hordered', ?_⟩,
    fun p a ↦ by rw [List.mem_append, hmem, hmem']⟩
  rintro ⟨p, a⟩ ha ⟨q, b⟩ hb
  exact hbefore p a q b ((hmem p a).1 ha) ((hmem' q b).1 hb)

theorem below (h : Lists occurs l) (i : ℕ) : Lists (fun p a ↦ ∃ q, p = i :: q ∧ occurs q a) l := by
  obtain ⟨entries, rfl, hordered, hmem⟩ := h
  refine ⟨entries.map fun e ↦ (i :: e.1, e.2), by simp, ?_, fun p a ↦ ?_⟩
  · rw [List.pairwise_map]
    exact hordered.imp fun hab ↦ before_cons_iff.2 (.inr ⟨rfl, hab⟩)
  · simp only [List.mem_map, Prod.mk.injEq, ← hmem]
    constructor
    · rintro ⟨e, he, rfl, rfl⟩
      exact ⟨e.1, rfl, he⟩
    · rintro ⟨q, rfl, hq⟩
      exact ⟨(q, a), hq, rfl, rfl⟩

/-- What occurs in the members of a list, one after the other, counted from `k`. -/
theorem flatMap {β : Type} {occurs : β → Place → α → Prop} {f : β → List α} (k : ℕ) {ts : List β}
    (h : ∀ t ∈ ts, Lists (occurs t) (f t)) :
    Lists (fun p a ↦ ∃ i t q, p = (k + i) :: q ∧ ts[i]? = some t ∧ occurs t q a)
      (ts.flatMap f) := by
  induction ts generalizing k with
  | nil => exact ⟨[], rfl, List.Pairwise.nil, by simp⟩
  | cons t ts ih =>
      have hfirst := (h t List.mem_cons_self).below k
      have hrest := ih (k + 1) fun t' ht' ↦ h t' (List.mem_cons_of_mem t ht')
      refine (hfirst.append hrest ?_).congr fun p a ↦ ?_
      · rintro _ a _ b ⟨q, rfl, -⟩ ⟨i, t', q', rfl, -, -⟩
        exact before_cons_iff.2 (.inl (by omega))
      · constructor
        · rintro (⟨q, rfl, hq⟩ | ⟨i, t', q, rfl, ht', hq⟩)
          · exact ⟨0, t, q, rfl, rfl, hq⟩
          · exact ⟨i + 1, t', q, by rw [Nat.add_assoc, Nat.add_comm 1], ht', hq⟩
        · rintro ⟨i, t', q, rfl, ht', hq⟩
          cases i with
          | zero =>
              cases ht'
              exact .inl ⟨q, rfl, hq⟩
          | succ i => exact .inr ⟨i, t', q, by rw [Nat.add_assoc, Nat.add_comm 1], ht', hq⟩

/-- The members of a list occur at their numbers. -/
theorem members (l : List α) : Lists (fun p a ↦ ∃ i, p = [i] ∧ l[i]? = some a) l := by
  have h := flatMap 0 fun (a : α) (_ : a ∈ l) ↦ singleton [] a
  rw [List.flatMap_singleton'] at h
  refine h.congr fun p a ↦ ?_
  simp only [Nat.zero_add]
  constructor
  · rintro ⟨i, b, q, rfl, hb, rfl, rfl⟩
    exact ⟨i, rfl, hb⟩
  · rintro ⟨i, rfl, hi⟩
    exact ⟨i, a, [], rfl, hi, rfl, rfl⟩

end Lists

/-! ## First and last occurrences -/

section Foremost

variable {α κ : Type} (ahead : Place → Place → Prop) (key : α → κ) (occurs : Place → α → Prop)

/-- The occurrence is ahead of all others with its key. -/
def IsForemost (p : Place) (a : α) : Prop :=
  occurs p a ∧ ∀ q b, occurs q b → key b = key a → q = p ∨ ahead p q

/-- A further occurrence behind all others is foremost where none of them has its key. -/
theorem isForemost_insert_iff (hahead : ∀ p q, ahead p q → ¬ ahead q p) {p : Place} {a : α}
    (hbehind : ∀ q b, occurs q b → ahead q p) (r : Place) (b : α) :
    IsForemost ahead key (fun q c ↦ occurs q c ∨ q = p ∧ c = a) r b ↔
      IsForemost ahead key occurs r b ∨ (r = p ∧ b = a) ∧ ∀ q c, occurs q c → key c ≠ key a := by
  constructor
  · rintro ⟨hr | ⟨rfl, rfl⟩, hforemost⟩
    · exact .inl ⟨hr, fun q c hq ↦ hforemost q c (.inl hq)⟩
    · refine .inr ⟨⟨rfl, rfl⟩, fun q c hq hkey ↦ ?_⟩
      have hq' := hbehind q c hq
      rcases hforemost q c (.inl hq) hkey with rfl | hr
      · exact hahead _ _ hq' hq'
      · exact hahead _ _ hq' hr
  · rintro (⟨hr, hforemost⟩ | ⟨⟨rfl, rfl⟩, hnone⟩)
    · refine ⟨.inl hr, ?_⟩
      rintro q c (hq | ⟨rfl, rfl⟩) hkey
      · exact hforemost q c hq hkey
      · exact .inr (hbehind r b hr)
    · refine ⟨.inr ⟨rfl, rfl⟩, ?_⟩
      rintro q c (hq | ⟨rfl, -⟩) hkey
      · exact absurd hkey (hnone q c hq)
      · exact .inl rfl

end Foremost

namespace Tree

theorem mem_addName {names : List String} {name other : String} :
    other ∈ addName names name ↔ other ∈ names ∨ other = name := by
  unfold addName
  split
  next hname =>
    have hmem : name ∈ names := by simpa using hname
    exact ⟨.inl, fun h ↦ h.elim id fun heq ↦ heq ▸ hmem⟩
  next => simp

theorem mem_foldl_addName {names new : List String} {name : String} :
    name ∈ new.foldl addName names ↔ name ∈ names ∨ name ∈ new := by
  induction new generalizing names with
  | nil => simp
  | cons n new ih => rw [List.foldl_cons, ih, mem_addName, List.mem_cons, or_assoc]

theorem nodup_foldl_addName {names : List String} (h : names.Nodup) (new : List String) :
    (new.foldl addName names).Nodup := by
  induction new generalizing names with
  | nil => exact h
  | cons n new ih =>
      refine ih ?_
      unfold addName
      split
      next => exact h
      next hn =>
        have hnot : n ∉ names := by simpa using hn
        rw [List.nodup_append]
        refine ⟨h, List.nodup_singleton n, ?_⟩
        rintro a ha b hb rfl
        exact hnot (List.mem_singleton.1 hb ▸ ha)

/-- Adding the names that occur, one after the other, gives the first of each name. -/
theorem lists_foldl_addName {occurs : Place → String → Prop} {l : List String}
    (h : Lists occurs l) : Lists (IsForemost Before id occurs) (l.foldl addName []) := by
  obtain ⟨entries, rfl, hordered, rfl⟩ := h.exists_entries
  clear h
  induction entries using List.reverseRecOn with
  | nil => exact ⟨[], rfl, List.Pairwise.nil, by simp [IsForemost]⟩
  | append_singleton entries e ih =>
      obtain ⟨p, a⟩ := e
      obtain ⟨hordered, -, hlast⟩ := List.pairwise_append.1 hordered
      replace ih := ih hordered
      have hbehind (q : Place) (b : String) (hq : (q, b) ∈ entries) : q.Before p :=
        hlast (q, b) hq (p, a) List.mem_cons_self
      have hiff := isForemost_insert_iff Before id (fun q b ↦ (q, b) ∈ entries) (a := a)
        (fun _ _ ↦ Before.asymm) hbehind
      simp only [List.mem_append, List.mem_singleton, Prod.mk.injEq]
      rw [List.map_append, List.foldl_append, List.map_singleton, List.foldl_cons, List.foldl_nil,
        addName]
      split
      next hold =>
        have hold' : a ∈ entries.map Prod.snd := by
          simpa [mem_foldl_addName] using hold
        obtain ⟨⟨q, b⟩, hq, rfl⟩ := List.mem_map.1 hold'
        refine ih.congr fun r c ↦ (or_iff_left ?_).symm.trans (hiff r c).symm
        exact fun hnone ↦ hnone.2 q b hq rfl
      next hnew =>
        have hnone : ∀ q c, (q, c) ∈ entries → id c ≠ id a := by
          rintro q c hq hkey
          obtain rfl : c = a := hkey
          exact hnew (by simpa [mem_foldl_addName] using ⟨q, hq⟩)
        refine (ih.append (.singleton p a) ?_).congr fun r c ↦ ?_
        · rintro q b _ _ hq ⟨rfl, -⟩
          exact hbehind q b hq.1
        · rw [hiff, and_iff_left hnone]

/-- Dropping the functions that are declared again keeps the last of each name. -/
theorem lists_keepLast {occurs : Place → FunctionNode → Prop} {l : List FunctionNode}
    (h : Lists occurs l) : Lists (IsForemost After functionKey occurs) (keepLast l) := by
  obtain ⟨entries, rfl, hordered, rfl⟩ := h.exists_entries
  clear h
  induction entries with
  | nil => exact ⟨[], rfl, List.Pairwise.nil, by simp [IsForemost]⟩
  | cons e entries ih =>
      obtain ⟨p, f⟩ := e
      obtain ⟨hfirst, hordered⟩ := List.pairwise_cons.1 hordered
      replace ih := ih hordered
      have hbehind (q : Place) (g : FunctionNode) (hq : (q, g) ∈ entries) : p.Before q :=
        hfirst (q, g) hq
      have hiff := isForemost_insert_iff After functionKey (fun q g ↦ (q, g) ∈ entries) (a := f)
        (fun _ _ ↦ Before.asymm) hbehind
      simp only [List.mem_cons, Prod.mk.injEq, or_comm (b := _ ∈ entries)]
      rw [List.map_cons, keepLast]
      split
      next hagain =>
        obtain ⟨q, g, hq, hkey⟩ : ∃ q g, (q, g) ∈ entries ∧ functionKey g = functionKey f := by
          simpa using hagain
        refine ih.congr fun r h ↦ (or_iff_left ?_).symm.trans (hiff r h).symm
        exact fun hnone ↦ hnone.2 q g hq hkey
      next honly =>
        have hnone : ∀ q g, (q, g) ∈ entries → functionKey g ≠ functionKey f := by
          intro q g hq hkey
          exact honly (by simpa using ⟨q, g, hq, hkey⟩)
        refine ((Lists.singleton p f).append ih ?_).congr fun r h ↦ ?_
        · rintro _ _ q g ⟨rfl, -⟩ hq
          exact hbehind q g hq.1
        · rw [hiff, and_iff_left hnone, or_comm]

/-! ## `var` names at any depth -/

/-- The names that a statement declares with `var` itself, or in its head. -/
def ownVarNames : StatementForm → List String
  | .variable .var ds => ds.map Declarator.name
  | .forLoop (.declare .var ds) _ _ _ => ds.map Declarator.name
  | .forIn (.declare .var name) _ _ => [name]
  | .forOf (.declare .var name) _ _ => [name]
  | _ => []

/-- The statements that a statement is made of, in the order of the source.  A function is no part
of the statement that declares it. -/
def parts : StatementForm → List Statement
  | .block body => body
  | .conditional _ yes no => yes :: no.toList
  | .whileLoop _ body | .doWhile body _ | .forLoop _ _ _ body | .forIn _ _ body | .forOf _ _ body
  | .labelled _ body | .with _ body => [body]
  | .try block handler finalizer =>
    block ++ (handler.elim [] fun | .mk _ body => body) ++ finalizer.getD []
  | .switch _ clauses => clauses.flatMap SwitchClause.body
  | .empty | .debugger | .expression _ | .variable _ _ | .return _ | .break _ | .continue _
  | .throw _ | .function _ | .class _ => []

/-- The name is declared with `var` at the place of a statement. -/
inductive VarAt : Statement → Place → String → Prop
  | own {s : Statement} {j : ℕ} {name : String} (h : (ownVarNames s.form)[j]? = some name) :
      VarAt s [0, j] name
  | part {s t : Statement} {i : ℕ} {p : Place} {name : String}
      (hpart : (parts s.form)[i]? = some t) (h : VarAt t p name) : VarAt s ((i + 1) :: p) name

/-- The name is declared with `var` at the place of a list of statements. -/
def VarIn (body : List Statement) (p : Place) (name : String) : Prop :=
  ∃ i s q, p = i :: q ∧ body[i]? = some s ∧ VarAt s q name

theorem sizeOf_part_lt {s t : Statement} (h : t ∈ parts s.form) : sizeOf t < sizeOf s := by
  obtain ⟨location, form⟩ := s
  have hlist (body : List Statement) (hbody : t ∈ body) : sizeOf t < sizeOf body :=
    List.sizeOf_lt_of_mem hbody
  rw [Statement.form] at h
  cases form with
  | block body =>
      have := hlist body h
      simp
      omega
  | conditional test yes no =>
      rcases List.mem_cons.1 h with rfl | h
      · simp
        omega
      · rw [Option.mem_toList] at h
        subst h
        simp
        omega
  | whileLoop | doWhile | forLoop | forIn | forOf | labelled | «with» =>
      rw [List.mem_singleton.1 h]
      simp
      omega
  | «try» block handler finalizer =>
      rcases List.mem_append.1 h with h | h
      · rcases List.mem_append.1 h with h | h
        · have := hlist block h
          simp
          omega
        · obtain _ | ⟨param, body⟩ := handler
          · cases h
          · have := hlist body h
            simp
            omega
      · cases finalizer with
        | none => cases h
        | some body =>
            have := hlist body h
            simp
            omega
  | «switch» subject clauses =>
      obtain ⟨⟨test, body⟩, hclause, hbody⟩ := List.mem_flatMap.1 h
      have := hlist body hbody
      have := List.sizeOf_lt_of_mem hclause
      simp at this ⊢
      omega
  | _ => cases h

theorem collectListVarNames_eq_foldl (names : List String) (body : List Statement) :
    collectListVarNames names body = body.foldl collectVarNames names := by
  induction body generalizing names with
  | nil => rw [collectListVarNames, List.foldl_nil]
  | cons s rest ih => rw [collectListVarNames, ih, List.foldl_cons]

theorem collectClauseVarNames_eq_foldl (names : List String) (clauses : List SwitchClause) :
    collectClauseVarNames names clauses =
      (clauses.flatMap SwitchClause.body).foldl collectVarNames names := by
  induction clauses generalizing names with
  | nil => rw [collectClauseVarNames, List.flatMap_nil, List.foldl_nil]
  | cons clause rest ih =>
      obtain ⟨test, body⟩ := clause
      rw [collectClauseVarNames, ih, collectListVarNames_eq_foldl, List.flatMap_cons,
        List.foldl_append, SwitchClause.body]

/-- A statement adds its own names and then those of its parts. -/
theorem collectVarNames_eq_foldl (names : List String) (s : Statement) :
    collectVarNames names s =
      (parts s.form).foldl collectVarNames ((ownVarNames s.form).foldl addName names) := by
  obtain ⟨location, form⟩ := s
  rw [collectVarNames, Statement.form]
  cases form with
  | block body => exact collectListVarNames_eq_foldl names body
  | «variable» kind ds => cases kind <;> rfl
  | conditional test yes no => cases no <;> rfl
  | forLoop init test update body => rcases init with _ | ⟨_ | _ | _, ds⟩ | _ <;> rfl
  | forIn target subject body => rcases target with ⟨_ | _ | _, name⟩ | _ <;> rfl
  | forOf target subject body => rcases target with ⟨_ | _ | _, name⟩ | _ <;> rfl
  | «try» block handler finalizer =>
      rcases handler with _ | ⟨param, body⟩ <;> rcases finalizer with _ | last <;>
        simp [collectFormVarNames, collectHandlerVarNames, collectFinalizerVarNames,
          collectListVarNames_eq_foldl, parts, ownVarNames]
  | «switch» subject clauses => exact collectClauseVarNames_eq_foldl names clauses
  | _ => rfl

/-- The names declared with `var` in a statement, in the order of the source and with
repetitions. -/
def varOccurrences (s : Statement) : List String :=
  ownVarNames s.form ++ (parts s.form).attach.flatMap fun t ↦ varOccurrences t.1
  termination_by sizeOf s
  decreasing_by exact sizeOf_part_lt t.2

theorem varOccurrences_eq (s : Statement) :
    varOccurrences s = ownVarNames s.form ++ (parts s.form).flatMap varOccurrences := by
  rw [varOccurrences, List.flatMap_subtype fun _ _ ↦ rfl, List.unattach_attach]

theorem foldl_collectVarNames {ts : List Statement}
    (h : ∀ t ∈ ts, ∀ names, collectVarNames names t = (varOccurrences t).foldl addName names)
    (names : List String) :
    ts.foldl collectVarNames names = (ts.flatMap varOccurrences).foldl addName names := by
  induction ts generalizing names with
  | nil => rfl
  | cons t ts ih =>
      obtain ⟨ht, hts⟩ := List.forall_mem_cons.1 h
      rw [List.foldl_cons, List.flatMap_cons, List.foldl_append, ih hts, ht]

theorem collectVarNames_eq (names : List String) (s : Statement) :
    collectVarNames names s = (varOccurrences s).foldl addName names := by
  induction s using varOccurrences.induct generalizing names with
  | case1 s ih =>
      rw [collectVarNames_eq_foldl, varOccurrences_eq, List.foldl_append,
        foldl_collectVarNames fun t ht names ↦ ih ⟨t, ht⟩ names]

/-- The names of a list are those that occur in its statements, each added once. -/
theorem varNames_eq (body : List Statement) :
    varNames body = (body.flatMap varOccurrences).foldl addName [] := by
  rw [varNames, collectListVarNames_eq_foldl,
    foldl_collectVarNames fun s _ names ↦ collectVarNames_eq names s]

theorem varAt_iff {s : Statement} {p : Place} {name : String} : VarAt s p name ↔
    (∃ q, p = 0 :: q ∧ ∃ j, q = [j] ∧ (ownVarNames s.form)[j]? = some name) ∨
      ∃ i t q, p = (1 + i) :: q ∧ (parts s.form)[i]? = some t ∧ VarAt t q name := by
  constructor
  · rintro (h | ⟨hpart, h⟩)
    · exact .inl ⟨_, rfl, _, rfl, h⟩
    · exact .inr ⟨_, _, _, by rw [Nat.add_comm], hpart, h⟩
  · rintro (⟨_, rfl, j, rfl, h⟩ | ⟨i, t, q, rfl, hpart, h⟩)
    · exact .own h
    · rw [Nat.add_comm]
      exact .part hpart h

theorem lists_varOccurrences (s : Statement) : Lists (VarAt s) (varOccurrences s) := by
  induction s using varOccurrences.induct with
  | case1 s ih =>
      have hown := (Lists.members (ownVarNames s.form)).below 0
      have hparts := Lists.flatMap 1 fun t (ht : t ∈ parts s.form) ↦ ih ⟨t, ht⟩
      rw [varOccurrences_eq]
      refine (hown.append hparts ?_).congr fun p name ↦ varAt_iff.symm
      rintro _ _ _ _ ⟨q, rfl, -⟩ ⟨i, t, q', rfl, -, -⟩
      exact before_cons_iff.2 (.inl (by omega))

theorem lists_varIn (body : List Statement) :
    Lists (VarIn body) (body.flatMap varOccurrences) :=
  (Lists.flatMap 0 fun s _ ↦ lists_varOccurrences s).congr fun p name ↦ by
    simp only [VarIn, Nat.zero_add]

/-! ## Lexical names and functions under labels -/

/-- The statement is the given one, under any labels. -/
inductive StandsFor : Statement → StatementForm → Prop
  | self (location : Location) (form : StatementForm) : StandsFor (.mk location form) form
  | labelled {body : Statement} {form : StatementForm} (location : Location) (label : String)
      (h : StandsFor body form) : StandsFor (.mk location (.labelled label body)) form

/-- The lexical name is declared at the place, directly in the list or under labels. -/
inductive LexicalIn (body : List Statement) : Place → LexicalName → Prop
  | declarator {i j : ℕ} {s : Statement} {kind : DeclarationKind} {ds : List Declarator}
      {d : Declarator} (hs : body[i]? = some s) (hform : StandsFor s (.variable kind ds))
      (hkind : kind ≠ .var) (hd : ds[j]? = some d) :
      LexicalIn body [i, j] ⟨d.name, decide (kind = .constant)⟩
  | class {i : ℕ} {s : Statement} {name : String} (hs : body[i]? = some s)
      (hform : StandsFor s (.class name)) : LexicalIn body [i, 0] ⟨name, false⟩

/-- The function is declared at the place, directly in the list or under labels. -/
def FunctionIn (body : List Statement) (p : Place) (f : FunctionNode) : Prop :=
  ∃ i s, p = [i] ∧ body[i]? = some s ∧ StandsFor s (.function f)

/-- Below its labels a statement is the one that stands there. -/
theorem standsFor_iff {s : Statement} {form : StatementForm}
    (hform : ∀ label body, form ≠ .labelled label body) :
    StandsFor s form ↔ unlabelled s = form := by
  constructor
  · intro h
    induction h with
    | self location form =>
        cases form with
        | labelled label body => exact absurd rfl (hform label body)
        | _ => rfl
    | labelled location label h ih => exact ih hform
  · rintro rfl
    fun_induction unlabelled s with
    | case1 location label body ih => exact .labelled location label (ih hform)
    | case2 location form => exact .self location form

theorem lexicalIn_of_getElem? {body : List Statement} {i j : ℕ} {s : Statement} {n : LexicalName}
    (hs : body[i]? = some s) (hn : (formLexicalNames (unlabelled s))[j]? = some n) :
    LexicalIn body [i, j] n := by
  cases hform : unlabelled s with
  | «variable» kind ds =>
      have hstands : StandsFor s (.variable kind ds) := (standsFor_iff (by simp)).2 hform
      rw [hform] at hn
      cases kind with
      | var => cases hn
      | lexical | constant =>
          rw [formLexicalNames, List.getElem?_map, Option.map_eq_some_iff] at hn
          obtain ⟨d, hd, rfl⟩ := hn
          exact .declarator hs hstands nofun hd
  | «class» name =>
      rw [hform, formLexicalNames, List.getElem?_singleton] at hn
      split at hn
      next hj =>
        cases hn
        exact hj ▸ .class hs ((standsFor_iff (by simp)).2 hform)
      next => cases hn
  | _ =>
      rw [hform] at hn
      cases hn

theorem standsFor_function_iff {s : Statement} {f : FunctionNode} :
    StandsFor s (.function f) ↔ formFunction? (unlabelled s) = some f := by
  rw [standsFor_iff (by simp)]
  cases unlabelled s <;> simp [formFunction?]

theorem lists_lexicalIn (body : List Statement) : Lists (LexicalIn body) (lexicalNames body) := by
  refine (Lists.flatMap 0 fun s _ ↦ Lists.members (formLexicalNames (unlabelled s))).congr
    fun p n ↦ ?_
  simp only [Nat.zero_add]
  constructor
  · rintro ⟨i, s, _, rfl, hs, j, rfl, hn⟩
    exact lexicalIn_of_getElem? hs hn
  · rintro (@⟨i, j, s, kind, ds, d, hs, hform, hkind, hd⟩ | @⟨i, s, name, hs, hform⟩)
    · refine ⟨i, s, [j], rfl, hs, j, rfl, ?_⟩
      rw [(standsFor_iff (by simp)).1 hform]
      cases kind with
      | var => exact absurd rfl hkind
      | lexical | constant => simp [formLexicalNames, hd]
    · refine ⟨i, s, [0], rfl, hs, 0, rfl, ?_⟩
      rw [(standsFor_iff (by simp)).1 hform]
      rfl

theorem lists_functionIn (body : List Statement) :
    Lists (FunctionIn body) (body.filterMap fun s ↦ formFunction? (unlabelled s)) := by
  rw [List.filterMap_eq_flatMap_toList]
  refine (Lists.flatMap 0 fun s _ ↦ Lists.ofOption (formFunction? (unlabelled s))).congr
    fun p f ↦ ?_
  simp only [Nat.zero_add, FunctionIn, standsFor_function_iff]
  constructor
  · rintro ⟨i, s, _, rfl, hs, rfl, hf⟩
    exact ⟨i, s, rfl, hs, hf⟩
  · rintro ⟨i, s, rfl, hs, hf⟩
    exact ⟨i, s, [], rfl, hs, rfl, hf⟩

/-! ## Directives -/

theorem directive?_eq_some_iff {s : Statement} {text : String} :
    directive? s = some text ↔ s.form = .expression (.string text) := by
  obtain ⟨location, form⟩ := s
  rw [Statement.form]
  constructor
  · intro h
    unfold directive? at h
    split at h
    next heq =>
      cases heq
      cases h
      rfl
    next => cases h
  · rintro rfl
    rfl

theorem isStrict_iff (body : List Statement) : isStrict body = true ↔
    ∃ before s rest, body = before ++ s :: rest ∧
      (∀ t ∈ before, ∃ text, t.form = .expression (.string text)) ∧
      s.form = .expression (.string "use strict") := by
  simp only [← directive?_eq_some_iff]
  induction body with
  | nil => simp [isStrict]
  | cons s rest ih =>
      rw [isStrict]
      constructor
      · intro h
        split at h
        next text htext =>
          split at h
          next heq => exact ⟨[], s, rest, rfl, nofun, heq ▸ htext⟩
          next =>
            obtain ⟨before, t, after, rfl, hbefore, ht⟩ := ih.1 h
            exact ⟨s :: before, t, after, rfl, List.forall_mem_cons.2 ⟨⟨text, htext⟩, hbefore⟩, ht⟩
        next => cases h
      · rintro ⟨before, t, after, heq, hbefore, ht⟩
        cases before with
        | nil =>
            cases heq
            simp [ht]
        | cons first before =>
            cases heq
            obtain ⟨⟨text, htext⟩, hbefore⟩ := List.forall_mem_cons.1 hbefore
            rw [htext]
            dsimp only
            split
            · rfl
            · exact ih.2 ⟨before, t, after, rfl, hbefore, ht⟩

end Tree

open Ecma.Tree

/-- The analysis finds the `var` names at any depth, each once and by its first declaration, all
lexical names and the last function of each name that are declared in the list itself or under
labels, and a directive for strict code among the strings at its head. -/
theorem Declarations.analyze_finds_what_is_declared (body : List Statement) :
    let found := analyze body
    (found.varNames.Nodup ∧ (∀ name, name ∈ found.varNames ↔ ∃ p, VarIn body p name) ∧
        Lists (IsForemost Before id (VarIn body)) found.varNames) ∧
      Lists (LexicalIn body) found.lexical ∧
      Lists (IsForemost After functionKey (FunctionIn body)) found.functions ∧
      (found.isStrict = true ↔ ∃ before s rest, body = before ++ s :: rest ∧
        (∀ t ∈ before, ∃ text, t.form = .expression (.string text)) ∧
        s.form = .expression (.string "use strict")) := by
  intro found
  have hvars : found.varNames = (body.flatMap varOccurrences).foldl addName [] := varNames_eq body
  rw [hvars]
  refine ⟨⟨nodup_foldl_addName List.nodup_nil _, fun name ↦ ?_,
    lists_foldl_addName (lists_varIn body)⟩, lists_lexicalIn body,
    lists_keepLast (lists_functionIn body), isStrict_iff body⟩
  rw [mem_foldl_addName, or_iff_right List.not_mem_nil, (lists_varIn body).mem_iff]

end Ecma
