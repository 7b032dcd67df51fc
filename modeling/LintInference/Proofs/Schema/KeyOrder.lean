import LintInference.Proofs.Schema.Alike
import LintInference.Proofs.Schema.Wheels

/-!
# The order of names in a schema

Schemas that are alike enumerate both or not at all, and what they enumerate corresponds one to one, as candidates that
are equal as JSON values (`enumerate_alike`). The places of the candidates may change with the order of properties, and
nothing else. So the order in which a schema names its keywords, properties and definitions is of no account for what
the schema means (`enumerate_ofJson_of_same`).
-/

namespace LintInference.Schema

/-! ## Results that follow -/

/-- If the first has a result, so has the second, and the results are related. -/
def Follows {α β : Type} (R : α → β → Prop) (x : Except Failure α) (y : Except Failure β) : Prop :=
  ∀ a, x = .ok a → ∃ b, y = .ok b ∧ R a b

namespace Follows

variable {α β γ δ : Type} {R : α → β → Prop} {S : γ → δ → Prop} {x : Except Failure α} {y : Except Failure β}

protected theorem ok {a : α} {b : β} (h : R a b) : Follows R (.ok a) (.ok b) := by
  rintro _ ⟨⟩
  exact ⟨b, rfl, h⟩

protected theorem bind (h : Follows R x y) {f : α → Except Failure γ} {g : β → Except Failure δ}
    (hfg : ∀ a b, x = .ok a → R a b → Follows S (f a) (g b)) : Follows S (x.bind f) (y.bind g) := by
  intro c hc
  obtain ⟨a, ha, hfa⟩ := bind_eq_ok_iff.1 hc
  obtain ⟨b, rfl, hab⟩ := h a ha
  exact hfg a b ha hab c hfa

protected theorem map (h : Follows R x y) {f : α → γ} {g : β → δ} (hfg : ∀ a b, R a b → S (f a) (g b)) :
    Follows S (x.map f) (y.map g) := by
  intro c hc
  obtain ⟨a, ha, rfl⟩ := map_eq_ok_iff.1 hc
  obtain ⟨b, rfl, hab⟩ := h a ha
  exact ⟨g b, rfl, hfg a b hab⟩

end Follows

/-! ## Objects -/

section Picks

variable {choices choices' : List Choice}

theorem allPicks_of_perm (h : choices.Perm choices') : Rearranged List.Perm (allPicks choices) (allPicks choices') := by
  induction h with
  | nil => exact .of_forall₂ (.cons .nil .nil)
  | cons c _ ih => exact ih.flatMap fun _ _ hm => (Rearranged.refl c.2).map fun _ _ hvw => hvw ▸ hm.cons _
  | swap c d choices =>
    simp only [allPicks, List.flatMap_assoc, List.flatMap_map]
    refine (Rearranged.refl _).flatMap fun m _ hm => ?_
    subst hm
    refine .perm_left (flatMap_map_perm c.2 d.2 fun v w => (d.1, w) :: (c.1, v) :: m) ?_
    refine (Rearranged.refl _).flatMap fun w _ hw => (Rearranged.refl _).map fun v _ hv => ?_
    subst hw hv
    exact .swap _ _ m
  | trans _ _ ih ih' =>
    refine (ih.comp ih').imp_of_mem ?_
    rintro _ _ _ ⟨_, h, h'⟩
    exact h.trans h'

theorem allPicks_of_forall₂ (h : List.Forall₂ (Entries.EntryAlike (Rearranged Json.Alike)) choices choices') :
    Rearranged (List.Forall₂ (Entries.EntryAlike Json.Alike)) (allPicks choices) (allPicks choices') := by
  induction h with
  | nil => exact .of_forall₂ (.cons .nil .nil)
  | cons hc _ ih => exact ih.flatMap fun _ _ hm => hc.2.map fun _ _ hvw => .cons ⟨hc.1, hvw⟩ hm

/-- The order of the wheels does not change how many ways there are to choose. -/
theorem prod_sizes_eq_of_alike (h : Entries.Alike (Rearranged Json.Alike) choices choices') :
    (choices.map (·.2.length)).prod = (choices'.map (·.2.length)).prod := by
  have hsizes : Rearranged Eq (choices.map (·.2.length)) (choices'.map (·.2.length)) :=
    h.entries.map fun _ _ hc => hc.2.length_eq
  exact hsizes.perm_of_eq.prod_nat

/-- The same properties with the same values give the same objects, if 64 bits are enough to count them. -/
theorem combinations_alike (hcount : (choices.map (·.2.length)).prod < UInt64.size)
    (h : Entries.Alike (Rearranged Json.Alike) choices choices') :
    Rearranged Json.Alike (combinations choices) (combinations choices') := by
  have hempty : choices = [] ↔ choices' = [] := by
    rw [← List.length_eq_zero_iff, ← List.length_eq_zero_iff, h.entries.length_eq]
  have hcount' : (choices'.map (·.2.length)).prod < UInt64.size := prod_sizes_eq_of_alike h ▸ hcount
  by_cases hne : choices = []
  · rw [hempty.1 hne, hne]
    exact .of_forall₂ .nil
  · obtain ⟨hn, choices₁, hp, hf⟩ := h
    have hpicks : Rearranged (fun m m' => Json.Alike (.object m) (.object m')) (allPicks choices) (allPicks choices') :=
      ((allPicks_of_perm hp).comp (allPicks_of_forall₂ hf)).imp_of_mem fun m hm m' hmm =>
        .of_entries ⟨keys_of_mem_allPicks hm ▸ hn, hmm⟩
    rw [combinations_eq_map_allPicks hcount hne, combinations_eq_map_allPicks hcount' (hempty.not.1 hne)]
    exact hpicks.map fun _ _ hmm => hmm

end Picks

/-! ## Candidates -/

/-- The candidates have equal values, place by place. -/
abbrev CandidateAlike (c d : Candidate) : Prop := List.Forall₂ Json.Alike c d

/-- What goes on from a seed in ways that correspond corresponds. -/
theorem appendAll_alike {seed seed' ws ws' : List Candidate} (hs : Rearranged CandidateAlike seed seed')
    (hw : Rearranged CandidateAlike ws ws') : Rearranged CandidateAlike (appendAll seed ws) (appendAll seed' ws') :=
  hw.flatMap fun _ _ hw => hs.map fun _ _ hc => List.rel_append hc hw

theorem appendEach_alike {vs vs' : List Json} (h : Rearranged Json.Alike vs vs') :
    Rearranged CandidateAlike (appendEach [[]] vs) (appendEach [[]] vs') :=
  h.flatMap fun _ _ hv => .of_forall₂ (.cons (.cons hv .nil) .nil)

/-- The suffixes of the second schema follow those of the first and correspond to them. -/
def SuffixesFollow (s t : Schema) : Prop :=
  Follows (Rearranged CandidateAlike) (enumerate s [[]]) (enumerate t [[]])

/-- The same for the values of a property. -/
def ValuesFollow (s t : Schema) : Prop := Follows (Rearranged Json.Alike) (propertyValues s) (propertyValues t)

theorem enumerateEach_follows {ss ts : List Schema} (h : List.Forall₂ SuffixesFollow ss ts) :
    Follows (Rearranged CandidateAlike) (enumerateEach ss [[]]) (enumerateEach ts [[]]) := by
  induction h with
  | nil =>
    rw [enumerateEach]
    exact .ok (.of_forall₂ (.cons .nil .nil))
  | @cons s t ss ts hst _ ih =>
    rw [enumerateEach_cons, enumerateEach_cons]
    refine hst.bind fun ws ws' _ hw => ?_
    rw [enumerateEach_eq_appendAll (fun t _ => enumerate_eq_appendAll t),
      enumerateEach_eq_appendAll (fun t _ => enumerate_eq_appendAll t) ws']
    exact ih.map fun _ _ hw' => appendAll_alike hw hw'

theorem enumerateAny_follows {ss ts : List Schema} (h : List.Forall₂ SuffixesFollow ss ts) :
    Follows (Rearranged CandidateAlike) (enumerateAny ss [[]]) (enumerateAny ts [[]]) := by
  induction h with
  | nil =>
    rw [enumerateAny]
    exact .ok (.of_forall₂ .nil)
  | cons hst _ ih =>
    rw [enumerateAny_cons, enumerateAny_cons]
    exact hst.bind fun _ _ _ hw => ih.map fun _ _ hw' => hw.append hw'

theorem anyPropertyValues_follows {ss ts : List Schema} (h : List.Forall₂ ValuesFollow ss ts) :
    Follows (Rearranged Json.Alike) (anyPropertyValues ss) (anyPropertyValues ts) := by
  induction h with
  | nil =>
    rw [anyPropertyValues]
    exact .ok (.of_forall₂ .nil)
  | cons hst _ ih =>
    rw [anyPropertyValues_cons, anyPropertyValues_cons]
    exact hst.bind fun _ _ _ hv => ih.map fun _ _ hv' => hv.append hv'

theorem choices_follow {ps qs : List (String × Schema)} (h : Entries.Alike ValuesFollow ps qs) :
    Follows (Entries.Alike (Rearranged Json.Alike)) (choices ps) (choices qs) := by
  intro cs hcs
  obtain ⟨all, hall, rfl⟩ := choices_ok_iff.1 hcs
  have step (e f : String × Schema) (c : Choice) (he : Entries.EntryAlike ValuesFollow e f)
      (hc : propertyValues e.2 = .ok c.2 ∧ c.1 = e.1) : ∃ d : Choice, (propertyValues f.2 = .ok d.2 ∧ d.1 = f.1) ∧
        Entries.EntryAlike (Rearranged Json.Alike) c d := by
    obtain ⟨vs, hvs, hr⟩ := he.2 c.2 hc.1
    exact ⟨(f.1, vs), ⟨hvs, rfl⟩, hc.2.trans he.1, hr⟩
  obtain ⟨all', hall', hr⟩ := h.entries.transport step hall
  refine ⟨_, choices_ok_iff.2 ⟨all', hall', rfl⟩, h.nodup.sublist (keys_sublist_of_choices hcs), ?_⟩
  refine hr.filter fun c d hcd => ?_
  simp only [Bool.not_eq_true', List.isEmpty_eq_false_iff, ne_eq, ← List.length_eq_zero_iff, hcd.2.length_eq]

theorem object_follows {ps qs : List (String × Schema)} (hfits : (Demand.objects ps).Fits)
    (h : Entries.Alike ValuesFollow ps qs) : SuffixesFollow (.object ps) (.object qs) := by
  intro ws hws
  rw [enumerate_object] at hws ⊢
  obtain ⟨cs, hcs, rfl⟩ := map_eq_ok_iff.1 hws
  obtain ⟨ds, hds, hcd⟩ := choices_follow h cs hcs
  have hobjects := combinations_alike (hfits.prod_lt hcs) hcd
  have hempty : combinations cs = [] ↔ combinations ds = [] := by
    rw [← List.length_eq_zero_iff, ← List.length_eq_zero_iff, hobjects.length_eq]
  refine ⟨_, map_eq_ok_iff.2 ⟨ds, hds, rfl⟩, ?_⟩
  by_cases hc : combinations cs = []
  · rw [if_pos hc, if_pos (hempty.1 hc)]
    exact .of_forall₂ (.cons .nil .nil)
  · rw [if_neg hc, if_neg (hempty.not.1 hc)]
    exact appendEach_alike hobjects

/-- A plain property has all values of the candidates of its schema. -/
theorem SuffixesFollow.values {s t : Schema} (h : SuffixesFollow s t) (hs : isPlain s = true) (ht : isPlain t = true) :
    ValuesFollow s t := by
  rw [ValuesFollow, propertyValues_of_isPlain hs, propertyValues_of_isPlain ht]
  exact h.map fun _ _ hw => hw.flatten

/-- Induction along enumeration: where a dictionary is met, the resolved schemas are alike. -/
theorem follow_of_alike (s : Schema) : ∀ {t}, Alike s t →
    ((Demand.candidates s).Fits → SuffixesFollow s t) ∧ ((Demand.values s).Fits → ValuesFollow s t) := by
  have plain {s t : Schema} (hs : isPlain s = true) (ht : isPlain t = true)
      (h : (Demand.candidates s).Fits → SuffixesFollow s t) :
      ((Demand.candidates s).Fits → SuffixesFollow s t) ∧ ((Demand.values s).Fits → ValuesFollow s t) :=
    ⟨h, fun hfits => (h (hfits.of_isPlain hs)).values hs ht⟩
  have items {R : Schema → Schema → Prop} {ss ts : List Schema} (h : List.Forall₂ Alike ss ts)
      (ih : ∀ s ∈ ss, ∀ {t}, Alike s t → R s t) : List.Forall₂ R ss ts :=
    ((List.forall₂_and_left _ _).2 ⟨fun s hs t => ih s hs (t := t), h⟩).imp fun _ _ h => h.1 _ h.2
  induction s using walkInduction with
  | enumeration literals =>
    rintro _ (⟨h⟩ | _)
    refine plain rfl rfl fun _ => ?_
    rw [SuffixesFollow, enumerate, enumerate]
    exact .ok (appendEach_alike (.of_forall₂ h))
  | boolean =>
    rintro _ ⟨⟩
    refine plain rfl rfl fun _ => ?_
    rw [SuffixesFollow, enumerate]
    exact .ok (appendEach_alike (.of_forall₂ (.cons (.bool false) (.cons (.bool true) .nil))))
  | object properties ih =>
    intro t h
    obtain ⟨qs, rfl, hn, hpq⟩ := alike_object_iff.1 h
    refine ⟨fun hfits => ?_, fun _ => ?_⟩
    · have hobjects : (Demand.objects properties).Fits := hfits.of_mem_needs List.mem_cons_self
      have hvalues := (Demand.fits_objects_iff.1 hobjects).2
      exact object_follows hobjects
        ⟨hn, hpq.imp_of_mem fun e he f hef => ⟨hef.1, (ih e he hef.2).2 (hvalues e he)⟩⟩
    · rw [ValuesFollow, propertyValues, propertyValues]
      exact .ok (.of_forall₂ .nil)
  | positional _ ih =>
    intro t h
    obtain ⟨ts, rfl, hst⟩ := (alike_listing_iff .positional).1 h
    refine plain rfl rfl fun hfits => ?_
    rw [SuffixesFollow, enumerate, enumerate]
    exact enumerateEach_follows (items hst fun s hs _ hst => (ih s hs hst).1 (hfits.of_mem_listed hs))
  | sequence _ ih =>
    intro t h
    obtain ⟨ts, rfl, hst⟩ := (alike_listing_iff .sequence).1 h
    refine plain rfl rfl fun hfits => ?_
    rw [SuffixesFollow, enumerate, enumerate]
    exact enumerateEach_follows (items hst fun s hs _ hst => (ih s hs hst).1 (hfits.of_mem_listed hs))
  | anyOf _ ih =>
    intro t h
    obtain ⟨ts, rfl, hst⟩ := (alike_listing_iff .anyOf).1 h
    rw [SuffixesFollow, ValuesFollow, enumerate, enumerate, propertyValues, propertyValues]
    exact ⟨fun hfits => enumerateAny_follows (items hst fun s hs _ hst => (ih s hs hst).1 (hfits.of_mem_listed hs)),
      fun hfits => anyPropertyValues_follows
        (items hst fun s hs _ hst => (ih s hs hst).2 (hfits.of_mem_branchesOf hs))⟩
  | oneOf _ ih =>
    intro t h
    obtain ⟨ts, rfl, hst⟩ := (alike_listing_iff .oneOf).1 h
    rw [SuffixesFollow, ValuesFollow, enumerate, enumerate, propertyValues, propertyValues]
    exact ⟨fun hfits => enumerateAny_follows (items hst fun s hs _ hst => (ih s hs hst).1 (hfits.of_mem_listed hs)),
      fun hfits => anyPropertyValues_follows
        (items hst fun s hs _ hst => (ih s hs hst).2 (hfits.of_mem_branchesOf hs))⟩
  | uniform item ih =>
    rintro _ (_ | _ | _ | _ | @⟨_, item', h⟩)
    refine plain rfl rfl fun hfits => ?_
    rcases enumeration_or_ne item with ⟨literals, rfl⟩ | hne
    · have hitem := (ih h).1 (hfits.of_mem_needs List.mem_cons_self)
      cases h
      rwa [SuffixesFollow, enumerate_uniform_enumeration, enumerate_uniform_enumeration]
    · have hne' : ∀ literals, item' ≠ .enumeration literals := by
        rintro literals rfl
        cases h
        exact hne _ rfl
      rw [SuffixesFollow, enumerate_uniform_of_ne _ hne, enumerate_uniform_of_ne _ hne']
      exact .ok (.of_forall₂ (.cons .nil .nil))
  | ref _ | unconstrained =>
    rintro _ ⟨⟩
    refine plain rfl rfl fun _ => ?_
    rw [SuffixesFollow, enumerate]
    exact .ok (.of_forall₂ (.cons .nil .nil))
  | defs definitions body ih =>
    intro t h
    obtain ⟨es, u, rfl, -, -⟩ := alike_defs_iff.1 h
    have hresolved : Follows Alike (resolve (.defs definitions body)) (resolve (.defs es u)) :=
      fun r hr => resolve_alike h hr
    rw [SuffixesFollow, ValuesFollow, enumerate_defs, enumerate_defs, propertyValues_defs, propertyValues_defs]
    exact ⟨fun hfits => hresolved.bind fun r _ hr hrr => (ih r hr hrr).1 (hfits.of_resolve hr),
      fun hfits => hresolved.bind fun r _ hr hrr => (ih r hr hrr).2 (hfits.values_of_resolve hr)⟩

/-- Schemas that are alike enumerate alike, from seeds with values that are equal to themselves. -/
theorem enumerate_alike {s t : Schema} (h : Alike s t) (hfits : (Demand.candidates s).Fits) {seed : List Candidate}
    (hs : ∀ c ∈ seed, ∀ v ∈ c, Json.Distinct v) :
    Follows (Rearranged CandidateAlike) (enumerate s seed) (enumerate t seed) := by
  have hseed : Rearranged CandidateAlike seed seed :=
    .of_forall₂ (List.forall₂_same.2 fun c hc => List.forall₂_same.2 fun v hv => .refl (hs c hc v hv))
  rw [enumerate_eq_appendAll s seed, enumerate_eq_appendAll t seed]
  exact ((follow_of_alike s h).1 hfits).map fun _ _ hw => appendAll_alike hseed hw

/-! ## Success -/

/-- Where the one enumerates, so does the other. No matter how many objects there are. -/
theorem enumerates_of_alike (s : Schema) :
    ∀ {t}, Alike s t → (Enumerates s → Enumerates t) ∧ (Valued s → Valued t) := by
  have plain {s t : Schema} (hs : isPlain s = true) (ht : isPlain t = true) (h : Enumerates s → Enumerates t) :
      (Enumerates s → Enumerates t) ∧ (Valued s → Valued t) :=
    ⟨h, by rwa [valued_iff_of_isPlain hs, valued_iff_of_isPlain ht]⟩
  have free {s t : Schema} (ht : hasDefs t = false) : (Enumerates s → Enumerates t) ∧ (Valued s → Valued t) :=
    ⟨fun _ => (enumerates_of_hasDefs ht).1, fun _ => (enumerates_of_hasDefs ht).2⟩
  have listing {f : List Schema → Schema} (hf : Listing f) {ss : List Schema}
      (ih : ∀ s ∈ ss, ∀ {t}, Alike s t → (Enumerates s → Enumerates t) ∧ (Valued s → Valued t)) {t : Schema}
      (h : Alike (f ss) t) : ∃ ts, t = f ts ∧ (Enumerates (f ss) → Enumerates (f ts)) ∧
        ((∀ s ∈ ss, Valued s) → ∀ t ∈ ts, Valued t) := by
    obtain ⟨ts, rfl, hst⟩ := (alike_listing_iff hf).1 h
    have hall := Rearranged.of_forall₂ hst
    refine ⟨ts, rfl, ?_, fun hs => hall.forall_mem fun s hmem _ hst => (ih s hmem hst).2 (hs s hmem)⟩
    rw [enumerates_listing_iff hf, enumerates_listing_iff hf]
    exact fun hs => hall.forall_mem fun s hmem _ hst => (ih s hmem hst).1 (hs s hmem)
  induction s using structuralInduction with
  | enumeration _ | boolean | ref _ | unconstrained =>
    rintro _ ⟨⟩
    exact free rfl
  | object properties ih =>
    intro t h
    obtain ⟨qs, rfl, -, hpq⟩ := alike_object_iff.1 h
    rw [enumerates_object_iff, enumerates_object_iff]
    exact ⟨fun hs => hpq.forall_mem fun e he _ hef => (ih e he hef.2).2 (hs e he), fun _ => valued_object qs⟩
  | positional _ ih =>
    intro t h
    obtain ⟨ts, rfl, hst, -⟩ := listing .positional ih h
    exact plain rfl rfl hst
  | sequence _ ih =>
    intro t h
    obtain ⟨ts, rfl, hst, -⟩ := listing .sequence ih h
    exact plain rfl rfl hst
  | anyOf _ ih =>
    intro t h
    obtain ⟨ts, rfl, hst, hvalues⟩ := listing .anyOf ih h
    exact ⟨hst, by rwa [valued_union_iff.1, valued_union_iff.1]⟩
  | oneOf _ ih =>
    intro t h
    obtain ⟨ts, rfl, hst, hvalues⟩ := listing .oneOf ih h
    exact ⟨hst, by rwa [valued_union_iff.2, valued_union_iff.2]⟩
  | uniform item _ =>
    rintro _ (_ | _ | _ | _ | @⟨_, item', h⟩)
    exact plain rfl rfl fun _ => enumerates_uniform item'
  | defs definitions body _ _ =>
    intro t h
    obtain ⟨es, u, rfl, -, -⟩ := alike_defs_iff.1 h
    have hresolved : (∃ r, resolve (.defs definitions body) = .ok r) → ∃ r, resolve (.defs es u) = .ok r := by
      rintro ⟨r, hr⟩
      obtain ⟨r', hr', -⟩ := resolve_alike h hr
      exact ⟨r', hr'⟩
    rw [enumerates_defs_iff, enumerates_defs_iff, valued_defs_iff, valued_defs_iff]
    exact ⟨hresolved, hresolved⟩

theorem exists_enumerate_iff_of_alike {s t : Schema} (h : Alike s t) (seed : List Candidate) :
    (∃ cs, enumerate s seed = .ok cs) ↔ ∃ ds, enumerate t seed = .ok ds := by
  rw [exists_enumerate_iff, exists_enumerate_iff]
  exact ⟨(enumerates_of_alike s h).1, (enumerates_of_alike t h.symm).1⟩

/-! ## Properties that are numbers -/

/-- The whole numbers below a bound, as values. -/
def numbersBelow (n : Nat) : List Json := (List.range n).map fun (k : Nat) => .number (.int k)

@[simp] theorem length_numbersBelow (n : Nat) : (numbersBelow n).length = n := by simp [numbersBelow]

/-- A node for an object whose properties are numbers, each below its bound. -/
def numbersNode (bounds : List (String × Nat)) : Json :=
  .object [("type", .string "object"),
    ("properties", .object (bounds.map fun e => (e.1, .object [("enum", .array (numbersBelow e.2))])))]

/-- The numbers that are the digits of a number in the base of the bounds. -/
def digits (bounds : List (String × Nat)) (q : Nat) : List (String × Json) :=
  List.zipWith (fun e i => (e.1, .number (.int i))) bounds (positionsAt (bounds.map (·.2)) q)

theorem distinct_numbersBelow (n : Nat) : Json.Distinct (.object [("enum", .array (numbersBelow n))]) := by
  have hvalues : Json.Distinct (.array (numbersBelow n)) := .array (List.forall_mem_map.2 fun k _ => .number (.int k))
  simp [Json.distinct_object_iff, Entries.keys, hvalues]

theorem distinct_numbersNode {bounds : List (String × Nat)} (h : (Entries.keys bounds).Nodup) :
    (numbersNode bounds).Distinct := by
  refine .object (by simp [Entries.keys]) (List.forall_mem_cons.2 ⟨.string _, List.forall_mem_singleton.2 ?_⟩)
  exact .object (by rwa [Entries.keys, List.map_map]) (List.forall_mem_map.2 fun e _ => distinct_numbersBelow e.2)

/-- The properties in another order. -/
theorem alike_numbersNode {bounds bounds' : List (String × Nat)} (h : (Entries.keys bounds).Nodup)
    (hp : bounds.Perm bounds') : Json.Alike (numbersNode bounds) (numbersNode bounds') := by
  have hproperties : Entries.Alike Json.Alike
      (bounds.map fun e => (e.1, Json.object [("enum", .array (numbersBelow e.2))]))
      (bounds'.map fun e => (e.1, Json.object [("enum", .array (numbersBelow e.2))])) := by
    refine ⟨by rwa [Entries.keys, List.map_map], _, hp.map _, List.forall₂_same.2 (List.forall_mem_map.2 fun e _ => ?_)⟩
    exact ⟨rfl, .refl (distinct_numbersBelow e.2)⟩
  refine .of_entries ⟨by simp [Entries.keys], .of_forall₂ (.cons ⟨rfl, .string _⟩ (.cons ⟨rfl, ?_⟩ .nil))⟩
  exact .of_entries hproperties

theorem ofJson_numbersNode (bounds : List (String × Nat)) :
    ofJson (numbersNode bounds) = .object (bounds.map fun e => (e.1, .enumeration (numbersBelow e.2))) := by
  have hentry (n : Nat) : ofJson (.object [("enum", .array (numbersBelow n))]) = .enumeration (numbersBelow n) := by
    simp [ofJson, partsOf, ofNode, ofParts, refOf?, allowsOthers, Entries.get?, Json.asArray?]
  have hentries : ofJsonEntries (bounds.map fun e => (e.1, .object [("enum", .array (numbersBelow e.2))])) =
      bounds.map fun e => (e.1, .enumeration (numbersBelow e.2)) := by
    simp [ofJsonEntries_eq_mapValues, Entries.mapValues, hentry]
  simp [numbersNode, ofJson, partsOf, ofNode, ofParts, refOf?, allowsOthers, Entries.get?, Json.asString?, hentries]

/-- The values that properties have if each is a number below its bound. -/
def numbersChoices (bounds : List (String × Nat)) : List Choice := bounds.map fun e => (e.1, numbersBelow e.2)

theorem sizes_numbersChoices (bounds : List (String × Nat)) :
    (numbersChoices bounds).map (·.2.length) = bounds.map (·.2) := by simp [numbersChoices]

theorem choices_numbers {bounds : List (String × Nat)} (h : ∀ e ∈ bounds, 0 < e.2) :
    choices (bounds.map fun e => (e.1, .enumeration (numbersBelow e.2))) = .ok (numbersChoices bounds) := by
  induction bounds with
  | nil =>
    rw [List.map_nil, choices]
    rfl
  | cons e bounds ih =>
    obtain ⟨he, hbounds⟩ := List.forall_mem_cons.1 h
    have hvalues : propertyValues (.enumeration (numbersBelow e.2)) = .ok (numbersBelow e.2) := by
      rw [propertyValues_of_isPlain rfl, enumerate, appendEach_unit, Except.map, ← List.flatMap_def,
        List.flatMap_singleton']
    have hne : numbersBelow e.2 ≠ [] := List.ne_nil_of_length_pos (by rwa [length_numbersBelow])
    rw [List.map_cons, choices_cons, hvalues, ih hbounds]
    exact congrArg Except.ok (if_neg hne)

/-- On show are the digits. -/
theorem shown_numbersChoices {bounds : List (String × Nat)} (h : ∀ e ∈ bounds, 0 < e.2) (q : Nat) :
    shown (numbersChoices bounds) (positionsAt ((numbersChoices bounds).map (·.2.length)) q) = digits bounds q := by
  induction bounds generalizing q with
  | nil => rfl
  | cons e bounds ih =>
    obtain ⟨he, hbounds⟩ := List.forall_mem_cons.1 h
    have hdigit : q % (numbersBelow e.2).length < (numbersBelow e.2).length := by
      rw [length_numbersBelow]
      exact Nat.mod_lt q he
    have hvalue : (numbersBelow e.2)[q % (numbersBelow e.2).length] = .number (.int (q % e.2 : Nat)) := by
      simp [numbersBelow]
    refine (shown_positionsAt_cons hdigit (numbersChoices bounds)).trans ?_
    rw [hvalue, ih hbounds, length_numbersBelow]
    rfl

/-- The objects of numbers are as many as 64 bits count, and each holds the digits of its place. -/
theorem enumerate_numbersNode {bounds : List (String × Nat)} (h : ∀ e ∈ bounds, 0 < e.2) {count : Nat}
    (hcount : (bounds.map (·.2)).prod % UInt64.size = count) (hne : bounds ≠ []) (hpos : 0 < count) :
    enumerate (ofJson (numbersNode bounds)) [Candidate.error] =
      .ok ((List.range count).map fun q => [.string "error", .object (digits bounds q)]) := by
  have hchoices : numbersChoices bounds ≠ [] := by simpa [numbersChoices] using hne
  have hobjects : combinations (numbersChoices bounds) = (List.range count).map fun q => .object (digits bounds q) := by
    rw [combinations_eq_map_range hchoices, combinationCount_eq_prod, sizes_numbersChoices, hcount]
    exact List.map_congr_left fun q _ => congrArg Json.object (sizes_numbersChoices bounds ▸ shown_numbersChoices h q)
  have hsome : combinations (numbersChoices bounds) ≠ [] := by
    rw [hobjects]
    exact List.ne_nil_of_length_pos (by simpa using hpos)
  rw [ofJson_numbersNode, enumerate_object, choices_numbers h, Except.map, if_neg hsome, hobjects, appendEach,
    List.flatMap_map, List.map_eq_flatMap]
  rfl

end LintInference.Schema
