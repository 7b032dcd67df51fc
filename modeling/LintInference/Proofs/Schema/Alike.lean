import LintInference.Proofs.Json.Equality
import LintInference.Proofs.Schema.Keywords
import LintInference.Proofs.Schema.Scoping

/-!
# Schemas that differ in the order of names

Two schemas are alike if they are the same up to the order of properties and definitions and up to equality of literals
(`Schema.Alike`). Values that are alike are read as schemas that are alike (`readsAlike`), and these resolve to schemas
that are alike, or not at all (`resolve_alike`).
-/

namespace LintInference.Schema

/-- The schemas are the same up to the order of properties and of definitions, each name standing once. -/
inductive Alike : Schema → Schema → Prop where
  | enumeration {as bs : List Json} : List.Forall₂ Json.Alike as bs → Alike (.enumeration as) (.enumeration bs)
  | boolean : Alike .boolean .boolean
  | object {ps cs qs : List (String × Schema)} : (Entries.keys ps).Nodup → ps.Perm cs →
      Entries.keys cs = Entries.keys qs → (∀ p ∈ cs.zip qs, Alike p.1.2 p.2.2) → Alike (.object ps) (.object qs)
  | positional {ss ts : List Schema} : ss.length = ts.length → (∀ p ∈ ss.zip ts, Alike p.1 p.2) →
      Alike (.positional ss) (.positional ts)
  | uniform {s t : Schema} : Alike s t → Alike (.uniform s) (.uniform t)
  | anyOf {ss ts : List Schema} : ss.length = ts.length → (∀ p ∈ ss.zip ts, Alike p.1 p.2) →
      Alike (.anyOf ss) (.anyOf ts)
  | oneOf {ss ts : List Schema} : ss.length = ts.length → (∀ p ∈ ss.zip ts, Alike p.1 p.2) →
      Alike (.oneOf ss) (.oneOf ts)
  | sequence {ss ts : List Schema} : ss.length = ts.length → (∀ p ∈ ss.zip ts, Alike p.1 p.2) →
      Alike (.sequence ss) (.sequence ts)
  | ref (name : String) : Alike (.ref name) (.ref name)
  | defs {ds cs es : List (String × Schema)} {s t : Schema} : (Entries.keys ds).Nodup → ds.Perm cs →
      Entries.keys cs = Entries.keys es → (∀ p ∈ cs.zip es, Alike p.1.2 p.2.2) → Alike s t →
      Alike (.defs ds s) (.defs es t)
  | unconstrained : Alike .unconstrained .unconstrained

theorem alike_listing_iff {f : List Schema → Schema} (hf : Listing f) {ss : List Schema} {t : Schema} :
    Alike (f ss) t ↔ ∃ ts, t = f ts ∧ List.Forall₂ Alike ss ts := by
  simp only [List.forall₂_iff_zip]
  constructor
  · intro h
    cases hf <;> cases h <;> rename_i hl h <;> exact ⟨_, rfl, hl, fun hp => h _ hp⟩
  · rintro ⟨ts, rfl, hl, h⟩
    cases hf <;> constructor <;> first | exact hl | exact fun _ hp => h hp

theorem alike_object_iff {ps : List (String × Schema)} {t : Schema} :
    Alike (.object ps) t ↔ ∃ qs, t = .object qs ∧ Entries.Alike Alike ps qs := by
  constructor
  · rintro (_ | _ | ⟨hn, hp, hk, h⟩)
    exact ⟨_, rfl, hn, _, hp, Entries.forall₂_entryAlike_iff.2 ⟨hk, h⟩⟩
  · rintro ⟨qs, rfl, hn, cs, hp, h⟩
    obtain ⟨hk, h⟩ := Entries.forall₂_entryAlike_iff.1 h
    exact .object hn hp hk h

theorem alike_defs_iff {ds : List (String × Schema)} {s t : Schema} :
    Alike (.defs ds s) t ↔ ∃ es u, t = .defs es u ∧ Entries.Alike Alike ds es ∧ Alike s u := by
  constructor
  · rintro (_ | _ | _ | _ | _ | _ | _ | _ | _ | ⟨hn, hp, hk, h, hs⟩)
    exact ⟨_, _, rfl, ⟨hn, _, hp, Entries.forall₂_entryAlike_iff.2 ⟨hk, h⟩⟩, hs⟩
  · rintro ⟨es, u, rfl, ⟨hn, cs, hp, h⟩, hs⟩
    obtain ⟨hk, h⟩ := Entries.forall₂_entryAlike_iff.1 h
    exact .defs hn hp hk h hs

/-- Induction with a hypothesis for the schemas of lists and of maps. -/
@[elab_as_elim]
theorem Alike.induction {P : ∀ s t, Alike s t → Prop}
    (enumeration : ∀ {as bs} (h : List.Forall₂ Json.Alike as bs), P _ _ (.enumeration h)) (boolean : P _ _ .boolean)
    (object : ∀ {ps qs} (h : Alike (.object ps) (.object qs)), Entries.Alike (fun s t => ∃ h, P s t h) ps qs → P _ _ h)
    (listing : ∀ {f} (_ : Listing f) {ss ts} (h : Alike (f ss) (f ts)), List.Forall₂ (fun s t => ∃ h, P s t h) ss ts →
      P _ _ h)
    (uniform : ∀ {s t} (h : Alike s t), P s t h → P _ _ (.uniform h)) (ref : ∀ name, P _ _ (.ref name))
    (defs : ∀ {ds es s t} (h : Alike (.defs ds s) (.defs es t)), Entries.Alike (fun s t => ∃ h, P s t h) ds es →
      (∃ h, P s t h) → P _ _ h)
    (unconstrained : P _ _ .unconstrained) {s t : Schema} (h : Alike s t) : P s t h := by
  induction h with
  | enumeration h => exact enumeration h
  | boolean => exact boolean
  | object hn hp hk h ih =>
    exact object _ ⟨hn, _, hp, Entries.forall₂_entryAlike_iff.2 ⟨hk, fun p hm => ⟨h p hm, ih p hm⟩⟩⟩
  | positional hl h ih => exact listing .positional _ (List.forall₂_iff_zip.2 ⟨hl, fun hp => ⟨h _ hp, ih _ hp⟩⟩)
  | anyOf hl h ih => exact listing .anyOf _ (List.forall₂_iff_zip.2 ⟨hl, fun hp => ⟨h _ hp, ih _ hp⟩⟩)
  | oneOf hl h ih => exact listing .oneOf _ (List.forall₂_iff_zip.2 ⟨hl, fun hp => ⟨h _ hp, ih _ hp⟩⟩)
  | sequence hl h ih => exact listing .sequence _ (List.forall₂_iff_zip.2 ⟨hl, fun hp => ⟨h _ hp, ih _ hp⟩⟩)
  | uniform h ih => exact uniform h ih
  | ref name => exact ref name
  | defs hn hp hk h hs ih ihs =>
    exact defs _ ⟨hn, _, hp, Entries.forall₂_entryAlike_iff.2 ⟨hk, fun p hm => ⟨h p hm, ih p hm⟩⟩⟩ ⟨hs, ihs⟩
  | unconstrained => exact unconstrained

theorem Alike.symm {s t : Schema} (h : Alike s t) : Alike t s := by
  induction h using Alike.induction with
  | enumeration h => exact .enumeration (h.imp fun _ _ h => h.symm).flip
  | boolean => exact .boolean
  | object _ ih => exact alike_object_iff.2 ⟨_, rfl, ih.symm fun _ _ ⟨_, h⟩ => h⟩
  | listing hf _ ih => exact (alike_listing_iff hf).2 ⟨_, rfl, (ih.imp fun _ _ ⟨_, h⟩ => h).flip⟩
  | uniform _ ih => exact .uniform ih
  | ref name => exact .ref name
  | defs _ ih ihs =>
    obtain ⟨_, hs⟩ := ihs
    exact alike_defs_iff.2 ⟨_, _, rfl, ih.symm fun _ _ ⟨_, h⟩ => h, hs⟩
  | unconstrained => exact .unconstrained

/-! ## Equality of schemas -/

theorem sameList_iff {ss ts : List Schema} :
    sameList ss ts = true ↔ List.Forall₂ (fun s t => same s t = true) ss ts := by
  induction ss generalizing ts with
  | nil => cases ts <;> simp [sameList]
  | cons s ss ih => cases ts <;> simp [sameList, ih]

theorem sameEntries_iff {ps qs : List (String × Schema)} :
    sameEntries ps qs = true ↔ ∀ e ∈ ps, ∃ t, Entries.get? qs e.1 = some t ∧ same e.2 t = true := by
  induction ps with
  | nil => simp [sameEntries]
  | cons e ps ih =>
    simp only [sameEntries, Bool.and_eq_true, List.forall_mem_cons, ih]
    cases Entries.get? qs e.1 <;> simp

/-- Schemas that are alike are equal. -/
theorem same_of_alike {s t : Schema} (h : Alike s t) : same s t = true := by
  have entries {ps qs : List (String × Schema)}
      (h : Entries.Alike (fun s t => ∃ _ : Alike s t, same s t = true) ps qs) :
      ps.length = qs.length ∧ sameEntries ps qs = true := by
    rw [sameEntries_iff]
    exact (Entries.alike_iff_get? h.nodup).1 (h.imp fun _ _ ⟨_, h⟩ => h)
  induction h using Alike.induction with
  | enumeration h =>
    rw [same, Json.sameItems_iff]
    exact h.imp fun _ _ h => Json.same_of_alike h
  | boolean | unconstrained => rfl
  | object _ ih =>
    obtain ⟨hl, hs⟩ := entries ih
    simp [same, hl, hs]
  | listing hf _ ih =>
    have hs := sameList_iff.2 (ih.imp fun _ _ ⟨_, h⟩ => h)
    cases hf <;> exact hs
  | uniform _ ih => exact ih
  | ref name => exact beq_self_eq_true name
  | defs _ ih ihs =>
    obtain ⟨hl, hs⟩ := entries ih
    obtain ⟨_, hbody⟩ := ihs
    simp [same, hl, hs, hbody]

/-! ## Reading -/

/-- The parts are alike, as far as there are any. -/
structure PartsAlike (p q : Parts) : Prop where
  definitions : Option.Rel (Entries.Alike Alike) p.definitions q.definitions
  places : Option.Rel (List.Forall₂ Alike) p.places q.places
  item : Option.Rel Alike p.item q.item
  properties : Option.Rel (Entries.Alike Alike) p.properties q.properties
  anyOf : Option.Rel (List.Forall₂ Alike) p.anyOf q.anyOf
  oneOf : Option.Rel (List.Forall₂ Alike) p.oneOf q.oneOf

section Node

variable {node node' : List (String × Json)} (h : Entries.Alike Json.Alike node node')

include h

theorem text_eq (key : String) :
    (Entries.get? node key).bind Json.asString? = (Entries.get? node' key).bind Json.asString? :=
  (h.rel_get? key).bind_eq fun _ _ hvw => hvw.asString?_eq

theorem refOf?_eq : refOf? node = refOf? node' := by rw [refOf?, refOf?, text_eq h, text_eq h]

theorem allowsOthers_eq : allowsOthers node = allowsOthers node' := by
  rw [allowsOthers, allowsOthers]
  obtain ⟨v, w, hv, hw, hvw⟩ | ⟨hv, hw⟩ := (h.rel_get? "additionalProperties").some_or_none
  · rw [hv, hw]
    cases hvw <;> rfl
  · rw [hv, hw]

theorem namesItems_eq : namesItems node = namesItems node' := by
  simp only [namesItems, (h.rel_get? _).isSome_eq]

/-- The first keyword that applies is the same, and what it says is alike. -/
theorem ofParts_alike {p q : Parts} (hp : PartsAlike p q) : Alike (ofParts node p) (ofParts node' q) := by
  have henum := (h.rel_get? "enum").bind fun _ _ hvw => hvw.rel_asArray?
  rw [ofParts, ofParts, refOf?_eq h, allowsOthers_eq h, text_eq h]
  generalize (Entries.get? node' "type").bind Json.asString? = type
  have ifArray {α : Type} {R : α → α → Prop} {x y : Option α} (hxy : Option.Rel R x y) :
      Option.Rel R (if type = some "array" then x else none) (if type = some "array" then y else none) := by
    split
    · exact hxy
    · exact .none
  cases refOf? node' with
  | some name => exact .ref name
  | none =>
    -- one keyword after the other: it applies on both sides, or else the next one is looked at
    dsimp only
    split
    · exact .unconstrained
    obtain ⟨ss, ts, hx, hy, hst⟩ | ⟨hx, hy⟩ := (ifArray hp.places).some_or_none <;> rw [hx, hy]
    · exact (alike_listing_iff .positional).2 ⟨_, rfl, hst⟩
    obtain ⟨s, t, hx, hy, hst⟩ | ⟨hx, hy⟩ := (ifArray hp.item).some_or_none <;> rw [hx, hy]
    · exact .uniform hst
    obtain ⟨as, bs, hx, hy, hab⟩ | ⟨hx, hy⟩ := henum.some_or_none <;> rw [hx, hy]
    · exact .enumeration hab
    dsimp only
    split
    · exact .boolean
    split
    · obtain ⟨ps, qs, hx, hy, hpq⟩ | ⟨hx, hy⟩ := hp.properties.some_or_none <;> rw [hx, hy]
      · exact alike_object_iff.2 ⟨_, rfl, hpq⟩
      · exact alike_object_iff.2 ⟨_, rfl, .nil⟩
    obtain ⟨ss, ts, hx, hy, hst⟩ | ⟨hx, hy⟩ := hp.anyOf.some_or_none <;> rw [hx, hy]
    · exact (alike_listing_iff .anyOf).2 ⟨_, rfl, hst⟩
    obtain ⟨ss, ts, hx, hy, hst⟩ | ⟨hx, hy⟩ := hp.oneOf.some_or_none <;> rw [hx, hy]
    · exact (alike_listing_iff .oneOf).2 ⟨_, rfl, hst⟩
    exact .unconstrained

theorem ofNode_alike {p q : Parts} (hp : PartsAlike p q) : Alike (ofNode node p) (ofNode node' q) := by
  rw [ofNode, ofNode]
  obtain ⟨ds, es, hd, he, hde⟩ | ⟨hd, he⟩ := hp.definitions.some_or_none <;> rw [hd, he]
  · exact alike_defs_iff.2 ⟨_, _, rfl, hde, ofParts_alike h hp⟩
  · exact ofParts_alike h hp

end Node

/-- The values are read as schemas that are alike, and so are the parts that a keyword takes from them. -/
structure ReadsAlike (v w : Json) : Prop where
  schema : Alike (ofJson v) (ofJson w)
  list : Option.Rel (List.Forall₂ Alike) (v.asArray?.map ofJsonList) (w.asArray?.map ofJsonList)
  entries : Option.Rel (Entries.Alike Alike) (v.asObject?.map ofJsonEntries) (w.asObject?.map ofJsonEntries)
  item : Option.Rel Alike (v.asObject?.bind itemOf?) (w.asObject?.bind itemOf?)

theorem partsOf_alike {node node' : List (String × Json)} (h : Entries.Alike ReadsAlike node node') :
    PartsAlike (partsOf node) (partsOf node') := by
  have list (key : String) : Option.Rel (List.Forall₂ Alike)
      (((Entries.get? node key).bind Json.asArray?).map ofJsonList)
      (((Entries.get? node' key).bind Json.asArray?).map ofJsonList) := by
    rw [Option.map_bind, Option.map_bind]
    exact (h.rel_get? key).bind fun _ _ hvw => hvw.list
  have entries (key : String) : Option.Rel (Entries.Alike Alike)
      (((Entries.get? node key).bind Json.asObject?).map ofJsonEntries)
      (((Entries.get? node' key).bind Json.asObject?).map ofJsonEntries) := by
    rw [Option.map_bind, Option.map_bind]
    exact (h.rel_get? key).bind fun _ _ hvw => hvw.entries
  have item : Option.Rel Alike (((Entries.get? node "items").bind Json.asObject?).bind itemOf?)
      (((Entries.get? node' "items").bind Json.asObject?).bind itemOf?) := by
    rw [Option.bind_assoc, Option.bind_assoc]
    exact (h.rel_get? "items").bind fun _ _ hvw => hvw.item
  rw [partsOf_eq, partsOf_eq]
  exact ⟨entries "defs", list "items", item, entries "properties", list "anyOf", list "oneOf"⟩

/-- Values that are alike are read as schemas that are alike. A keyword takes its parts from two levels below, so the
induction is for the values and for the parts that would be taken from them. -/
theorem readsAlike {v w : Json} (h : Json.Alike v w) : ReadsAlike v w := by
  induction h using Json.Alike.induction with
  | null | bool _ | number _ | string _ => exact ⟨.unconstrained, .none, .none, .none⟩
  | @array as bs h ih =>
    have hlist : List.Forall₂ Alike (ofJsonList as) (ofJsonList bs) := by
      rw [ofJsonList_eq_map, ofJsonList_eq_map]
      exact List.rel_map (fun _ _ ⟨_, h⟩ => h.schema) ih
    refine ⟨?_, .some hlist, .none, .none⟩
    cases ih with
    | nil => exact .unconstrained
    | cons _ _ => exact (alike_listing_iff .sequence).2 ⟨_, rfl, hlist⟩
  | @object node node' h ih =>
    have hnode : Entries.Alike Json.Alike node node' := ih.imp fun _ _ ⟨h, _⟩ => h
    have hschema : Alike (ofJson (.object node)) (ofJson (.object node')) := by
      rw [ofJson, ofJson]
      exact ofNode_alike hnode (partsOf_alike (ih.imp fun _ _ ⟨_, h⟩ => h))
    refine ⟨hschema, .none, .some ?_, ?_⟩
    · rw [ofJsonEntries_eq_mapValues, ofJsonEntries_eq_mapValues]
      exact ih.mapValues fun _ _ ⟨_, h⟩ => h.schema
    · show Option.Rel Alike (itemOf? node) (itemOf? node')
      rw [itemOf?, itemOf?, namesItems_eq hnode]
      split
      · exact .some hschema
      · exact .none

/-! ## Resolving -/

open Scoping (byUse byUse_find? resolveIn_eq_ok_iff)

/-- The scopes have the same names being expanded, and dictionaries that are alike around them. -/
structure ScopeAlike (scope scope' : Scope) : Prop where
  dictionaries : List.Forall₂ (Entries.Alike Alike) scope.dictionaries scope'.dictionaries
  expanding : scope.expanding = scope'.expanding

namespace ScopeAlike

variable {scope scope' : Scope}

theorem enter (h : ScopeAlike scope scope') {ds es : List (String × Schema)} (hde : Entries.Alike Alike ds es) :
    ScopeAlike (scope.enter ds) (scope'.enter es) :=
  ⟨.cons hde h.dictionaries, h.expanding⟩

theorem expand (h : ScopeAlike scope scope') (name : String) : ScopeAlike (scope.expand name) (scope'.expand name) :=
  ⟨h.dictionaries, congrArg (name :: ·) h.expanding⟩

theorem rel_find? {ds es : List (List (String × Schema))} (h : List.Forall₂ (Entries.Alike Alike) ds es)
    (name : String) : Option.Rel Alike (Scope.find? ds name) (Scope.find? es name) := by
  induction h with
  | nil => exact .none
  | cons hd _ ih =>
    rw [Scope.find?, Scope.find?]
    obtain ⟨s, t, hs, ht, hst⟩ | ⟨hs, ht⟩ := (hd.rel_get? name).some_or_none <;> rw [hs, ht]
    · exact .some hst
    · exact ih

theorem rel_lookup (h : ScopeAlike scope scope') (name : String) :
    Option.Rel Alike (scope.lookup name) (scope'.lookup name) := rel_find? h.dictionaries name

theorem outside_iff (h : ScopeAlike scope scope') : byUse.outside scope ↔ byUse.outside scope' := by
  show scope.dictionaries = [] ↔ scope'.dictionaries = []
  rw [← List.length_eq_zero_iff, ← List.length_eq_zero_iff, h.dictionaries.length_eq]

end ScopeAlike

theorem resolveIn_listing_iff {scope : Scope} {f : List Schema → Schema} (hf : Listing f) {ss : List Schema}
    {t : Schema} : resolveIn scope (f ss) = .ok t ↔
      ∃ ts, List.Forall₂ (fun s t => resolveIn scope s = .ok t) ss ts ∧ f ts = t := by
  cases hf <;> rw [resolveIn] <;> simp only [bind_eq_ok_iff, pure_eq_ok_iff, resolveListIn_ok_iff]

theorem resolveIn_object_iff {scope : Scope} {ps : List (String × Schema)} {t : Schema} :
    resolveIn scope (.object ps) = .ok t ↔
      ∃ qs, List.Forall₂ (fun e f => resolveIn scope e.2 = .ok f.2 ∧ f.1 = e.1) ps qs ∧ .object qs = t := by
  rw [resolveIn]
  simp only [bind_eq_ok_iff, pure_eq_ok_iff, resolveEntriesIn_ok_iff]

/-- Whatever is alike to the schema, in a scope that is alike, resolves to something alike to the tree. -/
def Followed (scope : Scope) (s t : Schema) : Prop :=
  ∀ ⦃scope' s'⦄, ScopeAlike scope scope' → Alike s s' → ∃ t', resolveIn scope' s' = .ok t' ∧ Alike t t'

theorem followed_listing {scope : Scope} {f : List Schema → Schema} (hf : Listing f) {ss ts : List Schema}
    (ih : List.Forall₂ (fun s t => ∃ _ : byUse.Substitutes scope s t, Followed scope s t) ss ts) :
    Followed scope (f ss) (f ts) := by
  intro scope' s' hscope hs
  obtain ⟨ss', rfl, hss⟩ := (alike_listing_iff hf).1 hs
  obtain ⟨ts', hts', hts⟩ := forall₂_transport (fun _ _ _ hst ⟨_, h⟩ => h hscope hst) hss ih
  exact ⟨f ts', (resolveIn_listing_iff hf).2 ⟨ts', hts', rfl⟩, (alike_listing_iff hf).2 ⟨ts', rfl, hts⟩⟩

/-- By induction on the substitution, as an expansion leads to a definition that is no part of the schema. -/
theorem followed_of_substitutes {scope : Scope} {s t : Schema} (h : byUse.Substitutes scope s t) :
    Followed scope s t := by
  induction h using Scoping.Substitutes.induction with
  | enumeration | boolean | unconstrained =>
    intro scope' s' _ hs
    refine ⟨s', ?_, hs⟩
    cases hs
    rw [resolveIn]
  | outside name ho =>
    rintro scope' s' hscope ⟨⟩
    exact ⟨_, resolveIn_eq_ok_iff.2 (.outside name (hscope.outside_iff.1 ho)), .ref name⟩
  | @ref scope scope₁ name definition t hn hf _ ih =>
    rintro scope' s' hscope ⟨⟩
    obtain ⟨hname, hlookup, rfl⟩ := byUse_find?.1 hf
    obtain ⟨_, definition', hd, hd', hdd⟩ | ⟨hd, _⟩ := (hscope.rel_lookup name).some_or_none
    · cases hlookup.symm.trans hd
      obtain ⟨t', ht', ht⟩ := ih (hscope.expand name) hdd
      have hname' : name ∉ scope'.expanding := hscope.expanding ▸ hname
      exact ⟨t', resolveIn_eq_ok_iff.2 (.ref (fun ho => hn (hscope.outside_iff.2 ho))
        (byUse_find?.2 ⟨hname', hd', rfl⟩) (resolveIn_eq_ok_iff.1 ht')), ht⟩
    · cases hlookup.symm.trans hd
  | defs _ ih =>
    intro scope' s' hscope hs
    obtain ⟨es, body, rfl, hde, hbody⟩ := alike_defs_iff.1 hs
    rw [resolveIn]
    exact ih (hscope.enter hde) hbody
  | @object scope ps ts hk _ ih =>
    intro scope' s' hscope hs
    obtain ⟨qs, rfl, hn, hpq⟩ := alike_object_iff.1 hs
    have step (e f c : String × Schema) (he : Entries.EntryAlike Alike e f)
        (hc : (∃ _ : byUse.Substitutes scope e.2 c.2, Followed scope e.2 c.2) ∧ c.1 = e.1) :
        ∃ d, (resolveIn scope' f.2 = .ok d.2 ∧ d.1 = f.1) ∧ Entries.EntryAlike Alike c d := by
      obtain ⟨⟨_, h⟩, hname⟩ := hc
      obtain ⟨t', ht', ht⟩ := h hscope he.2
      exact ⟨(f.1, t'), ⟨ht', rfl⟩, hname.trans he.1, ht⟩
    obtain ⟨us, hus, htu⟩ := hpq.transport step (Scoping.forall₂_entries hk ih)
    have hts : (Entries.keys ts).Nodup := by
      rw [Entries.keys, hk]
      exact hn
    exact ⟨.object us, resolveIn_object_iff.2 ⟨us, hus, rfl⟩, alike_object_iff.2 ⟨us, rfl, hts, htu⟩⟩
  | uniform _ ih =>
    rintro scope' s' hscope (_ | _ | _ | _ | hs)
    obtain ⟨t', ht', ht⟩ := ih hscope hs
    rw [resolveIn]
    exact ⟨.uniform t', bind_eq_ok_iff.2 ⟨t', ht', rfl⟩, .uniform ht⟩
  | positional _ ih => exact followed_listing .positional ih
  | anyOf _ ih => exact followed_listing .anyOf ih
  | oneOf _ ih => exact followed_listing .oneOf ih
  | sequence _ ih => exact followed_listing .sequence ih

/-- Schemas that are alike resolve to schemas that are alike. -/
theorem resolve_alike {s s' t : Schema} (hs : Alike s s') (h : resolve s = .ok t) :
    ∃ t', resolve s' = .ok t' ∧ Alike t t' :=
  followed_of_substitutes (resolveIn_eq_ok_iff.1 h) ⟨.nil, rfl⟩ hs

end LintInference.Schema
