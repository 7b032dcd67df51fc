import LintInference.Proofs.Schema.ResolvedForm

/-!
# Replacing references

A `Scoping` says what the references of a schema find, by what is around them. `Scoping.Substitutes` relates a schema to
the tree in which its references are replaced; a scoping admits at most one (`Substitutes.unique`), and none if a
reference finds no definition or its expansion comes to no end.

The resolver gives the tree of `Scoping.byUse` (`resolveIn_eq_ok_iff`): it resolves a definition in the scope of the
reference that it replaces. So what is proved about that tree by `Substitutes.induction` holds of what the resolver gives.
-/

namespace LintInference.Schema

/-- What the references of a schema find, by what is around them. -/
structure Scoping (E : Type) where
  /-- Is there no dictionary around? -/
  outside : E → Prop
  /-- What is around the body of a dictionary. -/
  enter : E → List (String × Schema) → E
  /-- The definition of a name, and what counts as being around that definition. -/
  find? : E → String → Option (Schema × E)

namespace Scoping

variable {E : Type}

mutual

/-- The second schema is the first one without its dictionaries, with each reference under one replaced by its definition,
in which references are replaced likewise. -/
inductive Substitutes (σ : Scoping E) : E → Schema → Schema → Prop where
  | enumeration (e : E) (literals : List Json) : Substitutes σ e (.enumeration literals) (.enumeration literals)
  | boolean (e : E) : Substitutes σ e .boolean .boolean
  | unconstrained (e : E) : Substitutes σ e .unconstrained .unconstrained
  | outside {e : E} (name : String) : σ.outside e → Substitutes σ e (.ref name) (.ref name)
  | ref {e e' : E} {name : String} {definition t : Schema} : ¬ σ.outside e →
      σ.find? e name = some (definition, e') → Substitutes σ e' definition t → Substitutes σ e (.ref name) t
  | defs {e : E} {definitions : List (String × Schema)} {body t : Schema} :
      Substitutes σ (σ.enter e definitions) body t → Substitutes σ e (.defs definitions body) t
  | object {e : E} {properties ts : List (String × Schema)} : ts.map (·.1) = properties.map (·.1) →
      SubstitutesList σ e (properties.map (·.2)) (ts.map (·.2)) → Substitutes σ e (.object properties) (.object ts)
  | uniform {e : E} {item t : Schema} : Substitutes σ e item t → Substitutes σ e (.uniform item) (.uniform t)
  | positional {e : E} {items ts : List Schema} :
      SubstitutesList σ e items ts → Substitutes σ e (.positional items) (.positional ts)
  | anyOf {e : E} {branches ts : List Schema} :
      SubstitutesList σ e branches ts → Substitutes σ e (.anyOf branches) (.anyOf ts)
  | oneOf {e : E} {branches ts : List Schema} :
      SubstitutesList σ e branches ts → Substitutes σ e (.oneOf branches) (.oneOf ts)
  | sequence {e : E} {elements ts : List Schema} :
      SubstitutesList σ e elements ts → Substitutes σ e (.sequence elements) (.sequence ts)

/-- The same for the schemas of a list, one by one. -/
inductive SubstitutesList (σ : Scoping E) : E → List Schema → List Schema → Prop where
  | nil (e : E) : SubstitutesList σ e [] []
  | cons {e : E} {s t : Schema} {ss ts : List Schema} :
      Substitutes σ e s t → SubstitutesList σ e ss ts → SubstitutesList σ e (s :: ss) (t :: ts)

end

variable {σ : Scoping E} {e : E}

theorem substitutesList_iff {ss ts : List Schema} :
    σ.SubstitutesList e ss ts ↔ List.Forall₂ (σ.Substitutes e) ss ts := by
  induction ss generalizing ts with
  | nil =>
    rw [List.forall₂_nil_left_iff]
    refine ⟨fun h => ?_, ?_⟩
    · cases h
      rfl
    · rintro rfl
      exact .nil e
  | cons s ss ih =>
    rw [List.forall₂_cons_left_iff]
    refine ⟨fun h => ?_, ?_⟩
    · cases h with
      | cons h hs => exact ⟨_, _, h, ih.1 hs, rfl⟩
    · rintro ⟨t, ts, h, hs, rfl⟩
      exact .cons h (ih.2 hs)

/-- Induction over a substitution, with a hypothesis for each schema of a list. -/
@[elab_as_elim]
theorem Substitutes.induction {P : ∀ e s t, σ.Substitutes e s t → Prop}
    (enumeration : ∀ e literals, P e _ _ (.enumeration e literals)) (boolean : ∀ e, P e _ _ (.boolean e))
    (unconstrained : ∀ e, P e _ _ (.unconstrained e))
    (outside : ∀ {e} name (ho : σ.outside e), P e _ _ (.outside name ho))
    (ref : ∀ {e e' name definition t} (hn : ¬ σ.outside e) (hf : σ.find? e name = some (definition, e'))
      (h : σ.Substitutes e' definition t), P e' definition t h → P e (.ref name) t (.ref hn hf h))
    (defs : ∀ {e definitions body t} (h : σ.Substitutes (σ.enter e definitions) body t),
      P _ body t h → P e (.defs definitions body) t (.defs h))
    (object : ∀ {e} {properties ts : List (String × Schema)} (hk : ts.map (·.1) = properties.map (·.1))
      (h : σ.SubstitutesList e (properties.map (·.2)) (ts.map (·.2))),
      List.Forall₂ (fun s t => ∃ h, P e s t h) (properties.map (·.2)) (ts.map (·.2)) → P e _ _ (.object hk h))
    (uniform : ∀ {e item t} (h : σ.Substitutes e item t), P e item t h → P e _ _ (.uniform h))
    (positional : ∀ {e items ts} (h : σ.SubstitutesList e items ts),
      List.Forall₂ (fun s t => ∃ h, P e s t h) items ts → P e _ _ (.positional h))
    (anyOf : ∀ {e branches ts} (h : σ.SubstitutesList e branches ts),
      List.Forall₂ (fun s t => ∃ h, P e s t h) branches ts → P e _ _ (.anyOf h))
    (oneOf : ∀ {e branches ts} (h : σ.SubstitutesList e branches ts),
      List.Forall₂ (fun s t => ∃ h, P e s t h) branches ts → P e _ _ (.oneOf h))
    (sequence : ∀ {e elements ts} (h : σ.SubstitutesList e elements ts),
      List.Forall₂ (fun s t => ∃ h, P e s t h) elements ts → P e _ _ (.sequence h))
    {e : E} {s t : Schema} (h : σ.Substitutes e s t) : P e s t h := by
  refine Substitutes.rec (motive_1 := P) (motive_2 := fun e ss ts _ => List.Forall₂ (fun s t => ∃ h, P e s t h) ss ts)
    enumeration boolean unconstrained outside ref defs object uniform positional anyOf oneOf sequence ?_ ?_ h
  · exact fun _ => .nil
  · exact fun h _ ih ihs => .cons ⟨h, ih⟩ ihs

/-! ## There is one tree at most -/

theorem list_unique {ss ts us : List Schema}
    (ih : List.Forall₂ (fun s t => ∃ _ : σ.Substitutes e s t, ∀ u, σ.Substitutes e s u → t = u) ss ts)
    (hu : σ.SubstitutesList e ss us) : ts = us := by
  induction ih generalizing us with
  | nil =>
    cases hu
    rfl
  | cons h _ ih =>
    cases hu with
    | cons hu hus => rw [h.2 _ hu, ih hus]

theorem Substitutes.unique {s t : Schema} (h : σ.Substitutes e s t) : ∀ u, σ.Substitutes e s u → t = u := by
  induction h using Substitutes.induction with
  | enumeration | boolean | unconstrained =>
    intro u hu
    cases hu
    rfl
  | outside _ ho =>
    intro u hu
    cases hu with
    | outside => rfl
    | ref hn _ _ => exact absurd ho hn
  | ref hn hf _ ih =>
    intro u hu
    cases hu with
    | outside _ ho => exact absurd ho hn
    | ref _ hf' hu =>
      cases hf.symm.trans hf'
      exact ih u hu
  | defs _ ih =>
    intro u hu
    cases hu with
    | defs hu => exact ih u hu
  | @object _ _ ts hk _ ih =>
    intro u hu
    cases hu with
    | @object _ _ us hk' hu =>
      have hts : ts = us := (List.zip_of_prod hk (list_unique ih hu)).trans (List.zip_of_prod hk' rfl).symm
      rw [hts]
  | uniform _ ih =>
    intro u hu
    cases hu with
    | uniform hu => rw [ih _ hu]
  | positional _ ih =>
    intro u hu
    cases hu with
    | positional hu => rw [list_unique ih hu]
  | anyOf _ ih =>
    intro u hu
    cases hu with
    | anyOf hu => rw [list_unique ih hu]
  | oneOf _ ih =>
    intro u hu
    cases hu with
    | oneOf hu => rw [list_unique ih hu]
  | sequence _ ih =>
    intro u hu
    cases hu with
    | sequence hu => rw [list_unique ih hu]

/-! ## The scoping of the resolver -/

/-- A definition is resolved in the scope of the reference that it replaces; no name is expanded within itself. -/
def byUse : Scoping Scope where
  outside scope := scope.dictionaries = []
  enter := Scope.enter
  find? scope name := if name ∈ scope.expanding then none else (scope.lookup name).map (·, scope.expand name)

theorem byUse_find? {scope scope' : Scope} {name : String} {definition : Schema} :
    byUse.find? scope name = some (definition, scope') ↔
      name ∉ scope.expanding ∧ scope.lookup name = some definition ∧ scope' = scope.expand name := by
  by_cases hn : name ∈ scope.expanding
  · simp [byUse, hn]
  · simp only [byUse, hn, if_false, Option.map_eq_some_iff, Prod.mk.injEq, not_false_eq_true, true_and]
    exact ⟨fun ⟨_, h, hd, hs⟩ => ⟨hd ▸ h, hs.symm⟩, fun ⟨h, hs⟩ => ⟨definition, h, rfl, hs.symm⟩⟩

theorem lookup_of_outside {scope : Scope} (h : byUse.outside scope) (name : String) : scope.lookup name = none := by
  have hd : scope.dictionaries = [] := h
  rw [Scope.lookup, hd, Scope.find?]

/-- Entries with the same names are related as their schemas are. -/
theorem forall₂_entries {R : Schema → Schema → Prop} {es fs : List (String × Schema)}
    (hk : fs.map (·.1) = es.map (·.1)) (h : List.Forall₂ R (es.map (·.2)) (fs.map (·.2))) :
    List.Forall₂ (fun e f => R e.2 f.2 ∧ f.1 = e.1) es fs := by
  rw [List.forall₂_map_left_iff, List.forall₂_map_right_iff] at h
  induction h with
  | nil => exact .nil
  | cons h _ ih =>
    obtain ⟨hn, hk⟩ := List.cons.inj hk
    exact .cons ⟨h, hn⟩ (ih hk)

theorem substitutes_of_resolveIn :
    (∀ scope s t, resolveIn scope s = .ok t → byUse.Substitutes scope s t) ∧
    (∀ scope ss ts, resolveListIn scope ss = .ok ts → byUse.SubstitutesList scope ss ts) ∧
    (∀ scope es fs, resolveEntriesIn scope es = .ok fs →
      fs.map (·.1) = es.map (·.1) ∧ byUse.SubstitutesList scope (es.map (·.2)) (fs.map (·.2))) := by
  refine resolveIn.mutual_induct (fun scope s => ∀ t, resolveIn scope s = .ok t → byUse.Substitutes scope s t)
    (fun scope ss => ∀ ts, resolveListIn scope ss = .ok ts → byUse.SubstitutesList scope ss ts)
    (fun scope es => ∀ fs, resolveEntriesIn scope es = .ok fs →
      fs.map (·.1) = es.map (·.1) ∧ byUse.SubstitutesList scope (es.map (·.2)) (fs.map (·.2)))
    ?_ ?_ ?_ ?_ ?_ ?_ ?_ ?_ ?_ ?_ ?_ ?_ ?_ ?_ ?_ ?_ ?_ ?_
  case refine_1 =>
    intro scope definitions body ih t h
    rw [resolveIn] at h
    exact .defs (ih t h)
  case refine_2 =>
    intro scope name hd t h
    rw [resolveIn, if_pos hd] at h
    cases h
    exact .outside name (List.isEmpty_iff.1 hd)
  case refine_3 =>
    intro scope name hd hn t h
    rw [resolveIn, if_neg hd, dif_pos hn] at h
    cases h
  case refine_4 =>
    intro scope name hd hn hl t h
    rw [resolveIn, if_neg hd, dif_neg hn] at h
    split at h <;> simp_all
  case refine_5 =>
    intro scope name hd hn definition hl ih t h
    rw [resolveIn, if_neg hd, dif_neg hn] at h
    refine .ref (fun ho => hd (List.isEmpty_iff.2 ho)) (byUse_find?.2 ⟨hn, hl, rfl⟩) (ih t ?_)
    split at h <;> simp_all
  case refine_6 =>
    intro scope properties ih t h
    simp only [resolveIn, bind_eq_ok_iff, pure_eq_ok_iff] at h
    obtain ⟨ts, hts, rfl⟩ := h
    exact .object (ih ts hts).1 (ih ts hts).2
  case refine_7 | refine_8 | refine_9 | refine_10 | refine_11 =>
    intro scope parts ih t h
    simp only [resolveIn, bind_eq_ok_iff, pure_eq_ok_iff] at h
    obtain ⟨ts, hts, rfl⟩ := h
    constructor
    exact ih ts hts
  case refine_12 | refine_13 | refine_14 =>
    intros
    rename_i h
    rw [resolveIn] at h
    cases h
    constructor
  case refine_15 =>
    intro scope ts h
    rw [resolveListIn] at h
    cases h
    exact .nil scope
  case refine_16 =>
    intro scope s ss ih ihs ts h
    simp only [resolveListIn, bind_eq_ok_iff, pure_eq_ok_iff] at h
    obtain ⟨t, ht, ts, hts, rfl⟩ := h
    exact .cons (ih t ht) (ihs ts hts)
  case refine_17 =>
    intro scope fs h
    rw [resolveEntriesIn] at h
    cases h
    exact ⟨rfl, .nil scope⟩
  case refine_18 =>
    intro scope name s es ih ihs fs h
    simp only [resolveEntriesIn, bind_eq_ok_iff, pure_eq_ok_iff] at h
    obtain ⟨t, ht, fs, hfs, rfl⟩ := h
    obtain ⟨hk, hs⟩ := ihs fs hfs
    exact ⟨congrArg (name :: ·) hk, .cons (ih t ht) hs⟩

/-- The resolver gives the tree of its scoping, and fails exactly if there is none. -/
theorem resolveIn_eq_ok_iff {scope : Scope} {s t : Schema} :
    resolveIn scope s = .ok t ↔ byUse.Substitutes scope s t := by
  refine ⟨substitutes_of_resolveIn.1 scope s t, fun h => ?_⟩
  induction h using Substitutes.induction with
  | enumeration | boolean | unconstrained => rw [resolveIn]
  | outside _ ho => rw [resolveIn, if_pos (List.isEmpty_iff.2 ho)]
  | ref hn hf _ ih =>
    obtain ⟨hname, hlookup, rfl⟩ := byUse_find?.1 hf
    rw [resolveIn, if_neg fun hd => hn (List.isEmpty_iff.1 hd), dif_neg hname]
    split <;> simp_all
  | defs _ ih =>
    rw [resolveIn]
    exact ih
  | object hk _ ih =>
    rw [resolveIn]
    have hts := resolveEntriesIn_ok_iff.2 (forall₂_entries hk (ih.imp fun _ _ h => h.2))
    exact bind_eq_ok_iff.2 ⟨_, hts, rfl⟩
  | uniform _ ih =>
    rw [resolveIn]
    exact bind_eq_ok_iff.2 ⟨_, ih, rfl⟩
  | positional _ ih | anyOf _ ih | oneOf _ ih | sequence _ ih =>
    rw [resolveIn]
    exact bind_eq_ok_iff.2 ⟨_, resolveListIn_ok_iff.2 (ih.imp fun _ _ h => h.2), rfl⟩

end Scoping

end LintInference.Schema
