import LintInference.Proofs.Schema.Nodes
import LintInference.Proofs.Schema.Scoping

/-!
# Lexical scoping

Under `Scoping.lexical` a reference is looked up where it is written: a definition refers to the dictionary that declares
it and to those around that one. The resolver looks a reference up where it is met instead, in all dictionaries in scope.
So a reference inside a definition can be captured: a dictionary that is in scope where the definition is used, but does
not stand around it, has another definition for the name (`Place.Captured`).

What the resolver gives is the lexical tree as long as its way comes past no captured reference, and it is the lexical
tree exactly if the captured references make no difference (`lexical_iff_of_resolve`).
-/

namespace LintInference.Schema

/-- The definition of a name in the innermost of the dictionaries that has one, with the dictionaries around it: the one
that declares it and those outside of that one. -/
def declared? : List (List (String × Schema)) → String → Option (Schema × List (List (String × Schema)))
  | [], _ => none
  | d :: ds, name =>
    match Entries.get? d name with
    | some definition => some (definition, d :: ds)
    | none => declared? ds name

theorem ne_nil_of_declared? {around around' : List (List (String × Schema))} {name : String} {definition : Schema}
    (h : declared? around name = some (definition, around')) : around' ≠ [] := by
  induction around with
  | nil => cases h
  | cons d ds ih =>
    rw [declared?] at h
    split at h
    · cases h
      exact List.cons_ne_nil _ _
    · exact ih h

/-- Each reference is looked up where it is written, in the dictionaries around it from the innermost outwards. -/
def Scoping.lexical : Scoping (List (List (String × Schema))) where
  outside ds := ds = []
  enter ds d := d :: ds
  find? := declared?

theorem Scoping.Substitutes.parts {E : Type} {σ : Scoping E} {e : E} {s t : Schema} (h : σ.Substitutes e s t)
    (hs : s.parts ≠ []) : List.Forall₂ (σ.Substitutes e) s.parts t.parts := by
  cases h with
  | enumeration | boolean | unconstrained | outside | ref | defs => exact absurd rfl hs
  | uniform h => exact .cons h .nil
  | object _ h | positional h | anyOf h | oneOf h | sequence h => exact substitutesList_iff.1 h

/-! ## The way of the resolver -/

/-- A place that the resolver comes to. -/
structure Place where
  /-- What the resolver has in scope there. -/
  scope : Scope
  /-- The dictionaries that the place is written under, the innermost first. -/
  around : List (List (String × Schema))
  schema : Schema

namespace Place

/-- The whole of a schema, outside all dictionaries. -/
def root (s : Schema) : Place := ⟨{}, [], s⟩

/-- From one place to the next. From a reference the way leads to its definition if that is the one that the reference
was written for. -/
inductive Step : Place → Place → Prop where
  | part {scope : Scope} {around : List (List (String × Schema))} {p s : Schema} :
      s ∈ p.parts → Step ⟨scope, around, p⟩ ⟨scope, around, s⟩
  | body (scope : Scope) (around : List (List (String × Schema))) (definitions : List (String × Schema)) (body : Schema) :
      Step ⟨scope, around, .defs definitions body⟩ ⟨scope.enter definitions, definitions :: around, body⟩
  | definition {scope : Scope} {around around' : List (List (String × Schema))} {name : String} {definition : Schema} :
      scope.lookup name = some definition → declared? around name = some (definition, around') →
        Step ⟨scope, around, .ref name⟩ ⟨scope.expand name, around', definition⟩

/-- The resolver comes from one place to the other. -/
def Reaches : Place → Place → Prop := Relation.ReflTransGen Step

/-- A reference for which the resolver has another definition in scope than the one it was written for. -/
def Captured (p : Place) : Prop :=
  ∃ name, p.schema = .ref name ∧ p.scope.lookup name ≠ (declared? p.around name).map (·.1)

/-- On the way from the place no reference is captured. -/
def Uncaptured (p : Place) : Prop := ∀ q, p.Reaches q → ¬ q.Captured

/-- What the resolver gives for the place is its lexical tree. -/
def Agrees (p : Place) : Prop :=
  ∃ t, resolveIn p.scope p.schema = .ok t ∧ Scoping.lexical.Substitutes p.around p.schema t

theorem agrees_iff {p : Place} :
    p.Agrees ↔ ∃ t, Scoping.byUse.Substitutes p.scope p.schema t ∧ Scoping.lexical.Substitutes p.around p.schema t := by
  simp only [Agrees, Scoping.resolveIn_eq_ok_iff]

/-! ## Ways without captured references -/

section Uncaptured

variable {scope : Scope} {around : List (List (String × Schema))}

theorem Uncaptured.of_step {p : Place} (hp : ¬ p.Captured) (h : ∀ q, Step p q → q.Uncaptured) : p.Uncaptured := by
  intro r hr
  rcases Relation.ReflTransGen.cases_head hr with rfl | ⟨q, hs, hq⟩
  · exact hp
  · exact h q hs r hq

theorem Uncaptured.defs {definitions : List (String × Schema)} {body : Schema}
    (h : Uncaptured ⟨scope.enter definitions, definitions :: around, body⟩) :
    Uncaptured ⟨scope, around, .defs definitions body⟩ := by
  refine .of_step (fun ⟨_, hs, _⟩ => nomatch hs) ?_
  rintro _ (hs | _ | _)
  · cases hs
  · exact h

/-- A reference that the resolver looks up where it is written. -/
theorem Uncaptured.ref {around' : List (List (String × Schema))} {name : String} {definition : Schema}
    (hl : scope.lookup name = some definition) (hd : declared? around name = some (definition, around'))
    (h : Uncaptured ⟨scope.expand name, around', definition⟩) : Uncaptured ⟨scope, around, .ref name⟩ := by
  refine .of_step ?_ ?_
  · rintro ⟨_, ⟨⟩, hc⟩
    exact hc (by rw [hl, hd]; rfl)
  · rintro _ (hs | _ | ⟨hl', hd'⟩)
    · cases hs
    · cases hl.symm.trans hl'
      cases hd.symm.trans hd'
      exact h

theorem Uncaptured.of_parts {s : Schema} (hr : ∀ name, s ≠ .ref name) (hd : ∀ definitions body, s ≠ .defs definitions body)
    (h : ∀ u ∈ s.parts, Uncaptured ⟨scope, around, u⟩) : Uncaptured ⟨scope, around, s⟩ := by
  refine .of_step (fun ⟨name, hs, _⟩ => hr name hs) ?_
  rintro _ (hs | _ | _)
  · exact h _ hs
  · exact absurd rfl (hd _ _)
  · exact absurd rfl (hr _)

end Uncaptured

/-! ## From the whole to its parts -/

theorem exists_of_forall₂_of_mem {R S : Schema → Schema → Prop} {ss ts : List Schema} (hR : List.Forall₂ R ss ts)
    (hS : List.Forall₂ S ss ts) {s : Schema} (hs : s ∈ ss) : ∃ t, R s t ∧ S s t := by
  obtain ⟨i, hi, rfl⟩ := List.getElem_of_mem hs
  have hi' : i < ts.length := hR.length_eq ▸ hi
  exact ⟨ts[i], hR.get hi hi', hS.get hi hi'⟩

/-- Where both give one tree, they do so at the next place. -/
theorem Agrees.step {p q : Place} (h : p.Agrees) (hs : Step p q) : q.Agrees := by
  rw [agrees_iff] at h ⊢
  obtain ⟨t, hu, hl⟩ := h
  cases hs with
  | part hs =>
    have hne := List.ne_nil_of_mem hs
    exact exists_of_forall₂_of_mem (hu.parts hne) (hl.parts hne) hs
  | body =>
    cases hu with
    | defs hu =>
      cases hl with
      | defs hl => exact ⟨t, hu, hl⟩
  | definition hlookup hdeclared =>
    cases hu with
    | outside _ ho => cases (Scoping.lookup_of_outside ho _).symm.trans hlookup
    | ref _ hfind hu =>
      cases hl with
      | outside _ ho =>
        cases ho
        cases hdeclared
      | ref _ hdeclared' hl =>
        obtain ⟨-, hlookup', rfl⟩ := Scoping.byUse_find?.1 hfind
        cases hlookup.symm.trans hlookup'
        cases hdeclared.symm.trans hdeclared'
        exact ⟨t, hu, hl⟩

theorem Agrees.of_reaches {p q : Place} (h : p.Agrees) (hr : p.Reaches q) : q.Agrees := by
  induction hr with
  | refl => exact h
  | tail _ hs ih => exact ih.step hs

/-! ## From the captured references to the whole -/

/-- Both have dictionaries around, or neither. -/
def Balanced (scope : Scope) (around : List (List (String × Schema))) : Prop := scope.dictionaries = [] ↔ around = []

/-- On the way from the place every captured reference agrees. -/
def CapturedAgree (p : Place) : Prop := ∀ q, p.Reaches q → q.Captured → q.Agrees

theorem CapturedAgree.step {p q : Place} (h : p.CapturedAgree) (hs : Step p q) : q.CapturedAgree :=
  fun r hr => h r (Relation.ReflTransGen.head hs hr)

/-- The tree of a schema in the scope is its lexical tree too. -/
def IsLexical (scope : Scope) (s t : Schema) : Prop :=
  ∀ around, Balanced scope around → CapturedAgree ⟨scope, around, s⟩ → Scoping.lexical.Substitutes around s t

theorem lexical_parts {scope : Scope} {around : List (List (String × Schema))} {s : Schema} {ts : List Schema}
    (hb : Balanced scope around) (hc : CapturedAgree ⟨scope, around, s⟩)
    (ih : List.Forall₂ (fun s t => ∃ _ : Scoping.byUse.Substitutes scope s t, IsLexical scope s t) s.parts ts) :
    Scoping.lexical.SubstitutesList around s.parts ts := by
  refine Scoping.substitutesList_iff.2 (forall₂_of_forall_mem (fun u hu t hut => ?_) ih)
  obtain ⟨_, hut⟩ := hut
  exact hut around hb (hc.step (.part hu))

theorem isLexical_of_substitutes {scope : Scope} {s t : Schema} (h : Scoping.byUse.Substitutes scope s t) :
    IsLexical scope s t := by
  induction h using Scoping.Substitutes.induction with
  | enumeration | boolean | unconstrained =>
    intro _ _ _
    constructor
  | outside name ho => exact fun around hb _ => .outside name (hb.1 ho)
  | @ref scope _ name _ _ hn hf h ih =>
    intro around hb hc
    by_cases hd : scope.lookup name = (declared? around name).map (·.1)
    · obtain ⟨-, hlookup, rfl⟩ := Scoping.byUse_find?.1 hf
      obtain ⟨⟨_, around'⟩, hdeclared, rfl⟩ := Option.map_eq_some_iff.1 (hd.symm.trans hlookup)
      have hb' : Balanced (scope.expand name) around' := iff_of_false hn (ne_nil_of_declared? hdeclared)
      exact .ref (fun ho => hn (hb.2 ho)) hdeclared (ih around' hb' (hc.step (.definition hlookup hdeclared)))
    · -- the reference is captured, but has the lexical tree nevertheless
      obtain ⟨u, hu, hl⟩ := agrees_iff.1 (hc _ Relation.ReflTransGen.refl ⟨name, rfl, hd⟩)
      cases (Scoping.Substitutes.ref hn hf h).unique u hu
      exact hl
  | defs _ ih =>
    intro around _ hc
    exact .defs (ih _ (iff_of_false (List.cons_ne_nil _ _) (List.cons_ne_nil _ _)) (hc.step (.body _ _ _ _)))
  | object hk _ ih => exact fun around hb hc => .object hk (lexical_parts (s := .object _) hb hc ih)
  | uniform _ ih => exact fun around hb hc => .uniform (ih around hb (hc.step (.part List.mem_cons_self)))
  | positional _ ih => exact fun around hb hc => .positional (lexical_parts (s := .positional _) hb hc ih)
  | anyOf _ ih => exact fun around hb hc => .anyOf (lexical_parts (s := .anyOf _) hb hc ih)
  | oneOf _ ih => exact fun around hb hc => .oneOf (lexical_parts (s := .oneOf _) hb hc ih)
  | sequence _ ih => exact fun around hb hc => .sequence (lexical_parts (s := .sequence _) hb hc ih)

end Place

/-- The resolved schema is the lexical tree, and the only one, if no reference on the way of the resolver is captured. It
is in general exactly if each captured reference that the resolver comes to has its lexical tree in spite of that. -/
theorem lexical_iff_of_resolve {s t : Schema} (h : resolve s = .ok t) :
    ((∀ p, (Place.root s).Reaches p → ¬ p.Captured) → ∀ u, Scoping.lexical.Substitutes [] s u ↔ u = t) ∧
      ((∀ u, Scoping.lexical.Substitutes [] s u ↔ u = t) ↔
        ∀ p, (Place.root s).Reaches p → p.Captured → p.Agrees) := by
  have hs : Scoping.byUse.Substitutes {} s t := Scoping.resolveIn_eq_ok_iff.1 h
  have hiff : (∀ u, Scoping.lexical.Substitutes [] s u ↔ u = t) ↔ (Place.root s).CapturedAgree := by
    constructor
    · intro hu p hp _
      have hroot : (Place.root s).Agrees := ⟨t, h, (hu t).2 rfl⟩
      exact hroot.of_reaches hp
    · intro hc u
      have hl : Scoping.lexical.Substitutes [] s t := Place.isLexical_of_substitutes hs [] (iff_of_true rfl rfl) hc
      exact ⟨fun hu => (hl.unique u hu).symm, fun hu => hu ▸ hl⟩
  exact ⟨fun hn => hiff.2 fun p hp hc => absurd hc (hn p hp), hiff⟩

/-- A definition that refers to another one of its dictionary, used under a dictionary with another name. -/
theorem lexical_iff_of_resolve_nested :
    let s : Schema := .defs [("a", .enumeration [.string "x"]), ("b", .ref "a")]
      (.defs [("c", .boolean)] (.anyOf [.ref "b", .ref "c"]))
    let t : Schema := .anyOf [.enumeration [.string "x"], .boolean]
    resolve s = .ok t ∧ (∀ p, (Place.root s).Reaches p → ¬ p.Captured) ∧
      (∀ u, Scoping.lexical.Substitutes [] s u ↔ u = t) ∧
      ((∀ u, Scoping.lexical.Substitutes [] s u ↔ u = t) ↔
        ∀ p, (Place.root s).Reaches p → p.Captured → p.Agrees) := by
  intro s t
  have hfree : (Place.root s).Uncaptured := by
    refine .defs (.defs (.of_parts nofun nofun (List.forall_mem_cons.2 ⟨?_, List.forall_mem_singleton.2 ?_⟩)))
    · exact .ref rfl rfl (.ref rfl rfl (.of_parts nofun nofun nofun))
    · exact .ref rfl rfl (.of_parts nofun nofun nofun)
  have h : resolve s = .ok t := by cbv
  obtain ⟨hlexical, hiff⟩ := lexical_iff_of_resolve h
  exact ⟨h, hfree, hlexical hfree, hiff⟩

/-- A schema that can be written: the definition of `a` refers to `b` of its own dictionary, and is used where another
dictionary has a `b`. -/
theorem lexical_ne_resolve_redeclared :
    ∃ s t u, ofJson (.object [("defs", .object [("a", .object [("$ref", .string "#/defs/b")]),
        ("b", .object [("enum", .array [.string "outer"])])]), ("anyOf", .array [.object
          [("defs", .object [("b", .object [("enum", .array [.string "inner"])])]), ("$ref", .string "#/defs/a")]])]) = s ∧
      resolve s = .ok t ∧ t = .anyOf [.enumeration [.string "inner"]] ∧
      Scoping.lexical.Substitutes [] s u ∧ u = .anyOf [.enumeration [.string "outer"]] ∧
      ¬ Scoping.lexical.Substitutes [] s t := by
  have hread : ofJson (.object [("defs", .object [("a", .object [("$ref", .string "#/defs/b")]),
        ("b", .object [("enum", .array [.string "outer"])])]), ("anyOf", .array [.object
          [("defs", .object [("b", .object [("enum", .array [.string "inner"])])]), ("$ref", .string "#/defs/a")]])]) =
      .defs [("a", .ref "b"), ("b", .enumeration [.string "outer"])]
        (.anyOf [.defs [("b", .enumeration [.string "inner"])] (.ref "a")]) := by
    simp [ofJson, ofJsonEntries, ofJsonList, partsOf, ofNode, ofParts, refOf?, refName, refPrefix, allowsOthers,
      Entries.get?, Json.asString?, Json.asArray?]
  have hres : resolve (.defs [("a", .ref "b"), ("b", .enumeration [.string "outer"])]
      (.anyOf [.defs [("b", .enumeration [.string "inner"])] (.ref "a")])) =
        .ok (.anyOf [.enumeration [.string "inner"]]) := by cbv
  have hlex : Scoping.lexical.Substitutes [] (.defs [("a", .ref "b"), ("b", .enumeration [.string "outer"])]
      (.anyOf [.defs [("b", .enumeration [.string "inner"])] (.ref "a")])) (.anyOf [.enumeration [.string "outer"]]) :=
    .defs (.anyOf (.cons (.defs (.ref (List.cons_ne_nil _ _) rfl (.ref (List.cons_ne_nil _ _) rfl
      (.enumeration _ _)))) (.nil _)))
  refine ⟨_, _, _, hread, hres, rfl, hlex, rfl, fun h => ?_⟩
  have := hlex.unique _ h
  simp at this

end LintInference.Schema
