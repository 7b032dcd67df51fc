import LintInference.Proofs.Entries
import LintInference.Proofs.Schema.Calls

/-!
# Resolution over one dictionary

A dictionary that holds no further dictionaries makes a graph of its names: one name refers to another if the definition
of the first holds a reference to the second. Resolution follows this graph from the references of the body. It succeeds
exactly if all names that it comes to are defined and none is on a cycle, and then there is one tree for each name,
whatever way led to it (`resolve_dictionary`).

Both directions follow the ways of the graph. A call has all names being expanded behind it (`Dictionary.Ahead`), so a
failure shows a name that is not defined or on a cycle. If the resolution succeeds, it does so along each way
(`Dictionary.exists_expands`).
-/

namespace LintInference.Schema

/-! ## Replacing references by trees -/

mutual

/-- The schema with each reference replaced by the tree for its name. A dictionary is left as it is. -/
def replaceRefs (tree : String → Schema) : Schema → Schema
  | .ref name => tree name
  | .object properties => .object (replaceRefsEntries tree properties)
  | .positional items => .positional (replaceRefsList tree items)
  | .uniform item => .uniform (replaceRefs tree item)
  | .anyOf branches => .anyOf (replaceRefsList tree branches)
  | .oneOf branches => .oneOf (replaceRefsList tree branches)
  | .sequence elements => .sequence (replaceRefsList tree elements)
  | s => s

/-- The same for each schema of a list. -/
def replaceRefsList (tree : String → Schema) : List Schema → List Schema
  | [] => []
  | s :: ss => replaceRefs tree s :: replaceRefsList tree ss

/-- The same for each of some named schemas. -/
def replaceRefsEntries (tree : String → Schema) : List (String × Schema) → List (String × Schema)
  | [] => []
  | (name, s) :: es => (name, replaceRefs tree s) :: replaceRefsEntries tree es

end

section Replace

variable {tree : String → Schema}

theorem replaceRefsList_eq (ss : List Schema) : replaceRefsList tree ss = ss.map (replaceRefs tree) := by
  induction ss with
  | nil => rfl
  | cons s ss ih => rw [replaceRefsList, ih, List.map_cons]

theorem replaceRefsEntries_eq (es : List (String × Schema)) :
    replaceRefsEntries tree es = (es.map (·.1)).zip ((es.map (·.2)).map (replaceRefs tree)) := by
  induction es with
  | nil => rfl
  | cons e es ih => simp [replaceRefsEntries, ih]

/-- What is related item by item to what the function gives is what it gives. -/
theorem map_eq_of_forall₂ {f : Schema → Schema} {ss ts : List Schema} (h : List.Forall₂ (fun s t => f s = t) ss ts) :
    ss.map f = ts := by
  rw [← List.forall₂_eq_eq_eq]
  exact List.forall₂_map_left_iff.2 h

theorem replaceRefs_composed {s : Schema} (hs : isComposed s = true) :
    s.replaceRefs tree = s.withParts (s.parts.map (replaceRefs tree)) := by
  cases s with
  | ref _ | defs _ _ => cases hs
  | object properties => rw [replaceRefs, replaceRefsEntries_eq, parts, withParts]
  | positional _ | anyOf _ | oneOf _ | sequence _ => rw [replaceRefs, replaceRefsList_eq, parts, withParts]
  | enumeration _ | boolean | uniform _ | unconstrained => rfl

end Replace

/-! ## The graph of a dictionary -/

/-- The definition of the first name holds a reference to the second. -/
def RefersTo (definitions : List (String × Schema)) (name name' : String) : Prop :=
  ∃ definition, Entries.get? definitions name = some definition ∧ definition.Contains (.ref name')

/-- A way of the graph leads to the name from one that the body refers to. -/
def Needed (definitions : List (String × Schema)) (body : Schema) (name : String) : Prop :=
  ∃ first, body.Contains (.ref first) ∧ Relation.ReflTransGen (RefersTo definitions) first name

/-- A way of the graph leads from the name back to it. -/
def OnCycle (definitions : List (String × Schema)) (name : String) : Prop :=
  Relation.TransGen (RefersTo definitions) name name

/-- The tree of each needed name is its definition with the trees in the places of the references. -/
def Unfolds (definitions : List (String × Schema)) (body : Schema) (tree : String → Schema) : Prop :=
  ∀ name, Needed definitions body name →
    ∃ definition, Entries.get? definitions name = some definition ∧ tree name = definition.replaceRefs tree

namespace Dictionary

variable {definitions : List (String × Schema)} {body : Schema} {name : String}

/-- The scope under the dictionary alone, with some names being expanded. -/
def under (definitions : List (String × Schema)) (expanding : List String) : Scope := ⟨[definitions], expanding⟩

theorem lookup_eq {scope : Scope} (h : scope.dictionaries = [definitions]) :
    scope.lookup name = Entries.get? definitions name := by
  rw [Scope.lookup, h, Scope.find?, Scope.find?, Option.or_none]

/-! ## Calls under the dictionary -/

/-- What the references of a call lead to: needed names, to which a way leads from each name being expanded. -/
structure Ahead (definitions : List (String × Schema)) (body : Schema) (c : Call) : Prop where
  dictionaries : c.scope.dictionaries = [definitions]
  defsFree : c.schema.DefsFree
  needed : ∀ name, c.schema.Contains (.ref name) → Needed definitions body name
  expanding : ∀ name ∈ c.scope.expanding, ∀ name', c.schema.Contains (.ref name') →
    Relation.TransGen (RefersTo definitions) name name'

theorem ahead_body (hbody : body.DefsFree) : Ahead definitions body ⟨under definitions [], body⟩ where
  dictionaries := rfl
  defsFree := hbody
  needed name h := ⟨name, h, .refl⟩
  expanding _ h := absurd h List.not_mem_nil

theorem Ahead.step (hdefs : ∀ e ∈ definitions, e.2.DefsFree) {c d : Call} (h : Ahead definitions body c)
    (hs : Call.Step true c d) : Ahead definitions body d := by
  cases hs with
  | @part scope p u before after hp _ =>
    have hu : u ∈ p.parts := by simp [hp]
    have hsub {v : Schema} (hv : u.Contains v) : p.Contains v := hv.of_mem_children (mem_children_of_mem_parts hu)
    exact ⟨h.dictionaries, h.defsFree.of_mem_parts hu, fun n hn => h.needed n (hsub hn),
      fun n hn n' hn' => h.expanding n hn n' (hsub hn')⟩
  | body scope ds b => exact absurd .refl (h.defsFree ds b)
  | @definition scope name definition hd =>
    have hget : Entries.get? definitions name = some definition :=
      (lookup_eq h.dictionaries).symm.trans (definition_eq_ok_iff.1 hd).2
    have hedge : ∀ n, definition.Contains (.ref n) → RefersTo definitions name n := fun n hn => ⟨definition, hget, hn⟩
    refine ⟨h.dictionaries, hdefs _ (Entries.mem_of_get? hget), fun n hn => ?_, fun n hn n' hn' => ?_⟩
    · obtain ⟨first, hfirst, hway⟩ := h.needed name .refl
      exact ⟨first, hfirst, hway.tail (hedge n hn)⟩
    · rcases List.mem_cons.1 hn with rfl | hn
      · exact .single (hedge n' hn')
      · exact (h.expanding n hn name .refl).tail (hedge n' hn')

theorem Ahead.of_reaches (hdefs : ∀ e ∈ definitions, e.2.DefsFree) {c d : Call} (h : Ahead definitions body c)
    (hr : Call.Reaches true c d) : Ahead definitions body d := by
  induction hr with
  | refl => exact h
  | tail _ hs ih => exact ih.step hdefs hs

/-- A failure shows a needed name that is not defined or on a cycle. -/
theorem needed_of_error (hbody : body.DefsFree) (hdefs : ∀ e ∈ definitions, e.2.DefsFree) {e : Failure}
    (h : resolve (.defs definitions body) = .error e) :
    ∃ name, Needed definitions body name ∧
      (e = .unresolvedReference name ∧ name ∉ Entries.keys definitions ∨
        e = .cyclicReference name ∧ OnCycle definitions name) := by
  rw [resolve, resolveIn_defs] at h
  obtain ⟨c, name, hr, hname, he⟩ := Call.exists_reaches_of_error (c := ⟨under definitions [], body⟩) h
  have hahead : Ahead definitions body c := (ahead_body hbody).of_reaches hdefs hr
  have hrefl : c.schema.Contains (.ref name) := hname ▸ .refl
  refine ⟨name, hahead.needed name hrefl, ?_⟩
  rcases definition_eq_error_iff.1 he with ⟨_, hn, rfl⟩ | ⟨_, hl, rfl⟩
  · exact .inr ⟨rfl, hahead.expanding name hn name hrefl⟩
  · refine .inl ⟨rfl, fun hkey => ?_⟩
    obtain ⟨definition, hget, _⟩ := Entries.exists_get?_of_mem_keys hkey
    rw [lookup_eq hahead.dictionaries, hget] at hl
    cases hl

/-! ## Success along the ways of the graph -/

/-- Inside the expansion of some names, the reference resolves to the tree. -/
def Expands (definitions : List (String × Schema)) (expanding : List String) (name : String) (t : Schema) : Prop :=
  resolveIn (under definitions expanding) (.ref name) = .ok t

theorem expands_iff {expanding : List String} {t : Schema} :
    Expands definitions expanding name t ↔
      name ∉ expanding ∧ ∃ definition, Entries.get? definitions name = some definition ∧
        resolveIn (under definitions (name :: expanding)) definition = .ok t := by
  have hne : (under definitions expanding).dictionaries ≠ [] := List.cons_ne_nil _ _
  rw [Expands, resolveIn_ref hne]
  constructor
  · intro h
    obtain ⟨definition, hd, h⟩ := bind_eq_ok_iff.1 h
    obtain ⟨hn, hl⟩ := definition_eq_ok_iff.1 hd
    exact ⟨fun hmem => hn ⟨rfl, hmem⟩, definition, (lookup_eq rfl).symm.trans hl, h⟩
  · rintro ⟨hn, definition, hget, h⟩
    have hd : (under definitions expanding).definition true name = .ok definition :=
      definition_eq_ok_iff.2 ⟨fun hc => hn hc.2, (lookup_eq rfl).trans hget⟩
    exact bind_eq_ok_iff.2 ⟨definition, hd, h⟩

/-- What resolves with more names being expanded resolves to the same tree with fewer. -/
theorem resolveIn_of_subset {expanding expanding' : List String} (hsub : expanding' ⊆ expanding) {s t : Schema}
    (h : resolveIn (under definitions expanding) s = .ok t) : resolveIn (under definitions expanding') s = .ok t := by
  have hdict : (under definitions expanding).dictionaries = (under definitions expanding').dictionaries := rfl
  exact Simulation.fewer.resolveIn_eq_ok ⟨hdict, hsub⟩ h

/-- If a schema resolves, so do the references in it. -/
theorem exists_expands_of_contains {expanding : List String} {s t : Schema} (hs : s.DefsFree)
    (h : resolveIn (under definitions expanding) s = .ok t) (hc : s.Contains (.ref name)) :
    ∃ u, Expands definitions expanding name u := by
  induction hc using Relation.ReflTransGen.head_induction_on generalizing t with
  | refl => exact ⟨t, h⟩
  | @head s u hu _ ih =>
    have hparts : u ∈ s.parts := mem_parts_of_mem_children hs hu
    obtain ⟨r, hr⟩ := exists_ok_of_mem_parts h hparts
    exact ih (hs.of_mem_parts hparts) hr

/-- A success goes on along each way of the graph, with the name it started from being expanded. -/
theorem exists_expands (hdefs : ∀ e ∈ definitions, e.2.DefsFree) {expanding : List String} {first : String} {t : Schema}
    (h : Expands definitions expanding first t) (hway : Relation.TransGen (RefersTo definitions) first name) :
    ∃ expanding' u, first ∈ expanding' ∧ Expands definitions expanding' name u := by
  have next {expanding : List String} {n n' : String} {t : Schema} (h : Expands definitions expanding n t)
      (hedge : RefersTo definitions n n') : ∃ u, Expands definitions (n :: expanding) n' u := by
    obtain ⟨_, definition, hget, hres⟩ := expands_iff.1 h
    obtain ⟨_, hget', hc⟩ := hedge
    cases hget.symm.trans hget'
    exact exists_expands_of_contains (hdefs _ (Entries.mem_of_get? hget)) hres hc
  induction hway with
  | single hedge =>
    obtain ⟨u, hu⟩ := next h hedge
    exact ⟨first :: expanding, u, List.mem_cons_self, hu⟩
  | @tail n _ _ hedge ih =>
    obtain ⟨expanding', _, hmem, hn⟩ := ih
    obtain ⟨u, hu⟩ := next hn hedge
    exact ⟨n :: expanding', u, List.mem_cons_of_mem _ hmem, hu⟩

/-- No name that resolves is on a cycle. -/
theorem not_onCycle_of_expands (hdefs : ∀ e ∈ definitions, e.2.DefsFree) {t : Schema}
    (h : Expands definitions [] name t) : ¬ OnCycle definitions name := by
  intro hcycle
  obtain ⟨expanding, u, hmem, hu⟩ := exists_expands hdefs h hcycle
  exact (expands_iff.1 hu).1 hmem

/-- If the dictionary resolves, so does each name that is needed. -/
theorem exists_expands_of_needed (hbody : body.DefsFree) (hdefs : ∀ e ∈ definitions, e.2.DefsFree) {t : Schema}
    (h : resolve (.defs definitions body) = .ok t) (hneeded : Needed definitions body name) :
    ∃ u, Expands definitions [] name u := by
  rw [resolve, resolveIn_defs] at h
  obtain ⟨first, hfirst, hway⟩ := hneeded
  obtain ⟨u, hu⟩ := exists_expands_of_contains hbody h hfirst
  rcases Relation.reflTransGen_iff_eq_or_transGen.1 hway with rfl | hway
  · exact ⟨u, hu⟩
  · obtain ⟨expanding, v, _, hv⟩ := exists_expands hdefs hu hway
    exact ⟨v, resolveIn_of_subset (List.nil_subset _) hv⟩

/-! ## The trees -/

/-- The tree that a name resolves to under the dictionary. -/
def treeOf (definitions : List (String × Schema)) (name : String) : Schema :=
  match resolveIn (under definitions []) (.ref name) with
  | .ok t => t
  | .error _ => .ref name

/-- Whatever names are being expanded, a name that resolves has its tree. -/
theorem Expands.treeOf_eq {expanding : List String} {t : Schema} (h : Expands definitions expanding name t) :
    treeOf definitions name = t := by
  have h : Expands definitions [] name t := resolveIn_of_subset (List.nil_subset _) h
  rw [treeOf, h]

theorem replaceRefs_treeOf {expanding : List String} {s t : Schema} (hs : s.DefsFree)
    (h : resolveIn (under definitions expanding) s = .ok t) : s.replaceRefs (treeOf definitions) = t := by
  induction s using kindInduction generalizing t with
  | ref name => exact Expands.treeOf_eq h
  | defs ds b _ _ => exact absurd .refl (hs ds b)
  | composed s hc ih =>
    obtain ⟨ts, hts, rfl⟩ := (resolveIn_composed_ok_iff hc).1 h
    have hmap : s.parts.map (replaceRefs (treeOf definitions)) = ts :=
      map_eq_of_forall₂ (forall₂_of_forall_mem (fun u hu r hr => ih u hu (hs.of_mem_parts hu) hr) hts)
    rw [replaceRefs_composed hc, hmap]

theorem unfolds_treeOf (hbody : body.DefsFree) (hdefs : ∀ e ∈ definitions, e.2.DefsFree) {t : Schema}
    (h : resolve (.defs definitions body) = .ok t) : Unfolds definitions body (treeOf definitions) := by
  intro name hneeded
  obtain ⟨u, hu⟩ := exists_expands_of_needed hbody hdefs h hneeded
  obtain ⟨_, definition, hget, hres⟩ := expands_iff.1 hu
  have htree : definition.replaceRefs (treeOf definitions) = u :=
    replaceRefs_treeOf (hdefs _ (Entries.mem_of_get? hget)) hres
  exact ⟨definition, hget, hu.treeOf_eq.trans htree.symm⟩

/-- Trees that unfold the definitions are those that come of the references. -/
theorem replaceRefs_of_unfolds (hdefs : ∀ e ∈ definitions, e.2.DefsFree) {tree : String → Schema}
    (htree : Unfolds definitions body tree) {scope : Scope} {s t : Schema} (h : resolveIn scope s = .ok t) :
    scope.dictionaries = [definitions] → s.DefsFree → (∀ name, s.Contains (.ref name) → Needed definitions body name) →
      s.replaceRefs tree = t := by
  -- on the expansions, as the definition of a name is no part of the schema that refers to it
  induction h using resolvedInduction with
  | outside name ho =>
    intro hd
    cases hd.symm.trans ho
  | @ref scope name definition t hdef _ ih =>
    intro hd _ hneeded
    have hget : Entries.get? definitions name = some definition :=
      (lookup_eq hd).symm.trans (definition_eq_ok_iff.1 hdef).2
    obtain ⟨first, hfirst, hway⟩ := hneeded name .refl
    have hdefinition : definition.replaceRefs tree = t := by
      refine ih hd (hdefs _ (Entries.mem_of_get? hget)) fun n hn => ⟨first, hfirst, hway.tail ?_⟩
      exact ⟨definition, hget, hn⟩
    obtain ⟨_, hget', heq⟩ := htree name (hneeded name .refl)
    cases hget.symm.trans hget'
    rw [replaceRefs, heq, hdefinition]
  | @defs _ ds b _ _ _ =>
    intro _ hs
    exact absurd .refl (hs ds b)
  | @composed scope s ts hc hts =>
    intro hd hs hneeded
    have hmap : s.parts.map (replaceRefs tree) = ts := by
      refine map_eq_of_forall₂ (forall₂_of_forall_mem (fun u hu r hr => ?_) hts)
      exact hr.2 hd (hs.of_mem_parts hu) fun n hn => hneeded n (hn.of_mem_children (mem_children_of_mem_parts hu))
    rw [replaceRefs_composed hc, hmap]

theorem eq_treeOf_of_unfolds (hbody : body.DefsFree) (hdefs : ∀ e ∈ definitions, e.2.DefsFree) {t : Schema}
    (h : resolve (.defs definitions body) = .ok t) {tree : String → Schema} (htree : Unfolds definitions body tree)
    (hneeded : Needed definitions body name) : tree name = treeOf definitions name := by
  obtain ⟨u, hu⟩ := exists_expands_of_needed hbody hdefs h hneeded
  have hname : (Schema.ref name).replaceRefs tree = u := by
    refine replaceRefs_of_unfolds hdefs htree hu rfl (hasDefs_eq_false_iff.1 rfl) fun n hn => ?_
    rcases contains_iff.1 hn with h | ⟨v, hv, _⟩
    · cases h
      exact hneeded
    · cases hv
  rw [replaceRefs] at hname
  rw [hname, hu.treeOf_eq]

/-- Whichever call comes to a reference, what comes of it is the tree of the name. -/
theorem resolveIn_of_reaches (hbody : body.DefsFree) (hdefs : ∀ e ∈ definitions, e.2.DefsFree) {t : Schema}
    (h : resolve (.defs definitions body) = .ok t) {c : Call}
    (hr : Call.Reaches true (.root (.defs definitions body)) c) (hname : c.schema = .ref name) :
    resolveIn c.scope c.schema = .ok (treeOf definitions name) := by
  rcases Relation.ReflTransGen.cases_head hr with rfl | ⟨d, hd, hr⟩
  · cases hname
  · cases Call.defs_of_step hd
    have hahead : Ahead definitions body c := (ahead_body hbody).of_reaches hdefs hr
    have hbodyOk : resolveIn (under definitions []) body = .ok t := (resolveIn_defs {} definitions body).symm.trans h
    obtain ⟨u, hu⟩ := Call.exists_ok_of_reaches hbodyOk hr
    obtain ⟨⟨dictionaries, expanding⟩, s⟩ := c
    cases hahead.dictionaries
    cases hname
    have htree : treeOf definitions name = u := Expands.treeOf_eq hu
    exact hu.trans (congrArg _ htree.symm)

end Dictionary

/-! ## Domain and result -/

/-- Resolution over one dictionary succeeds exactly if each needed name is defined and not on a cycle. Then there are
trees that unfold the definitions, and no others: the body has them in the places of its references, and so has each
reference on the way, whatever names are being expanded there. A failure tells a needed name that is not defined, or one
on a cycle. -/
theorem resolve_dictionary {definitions : List (String × Schema)} {body : Schema} (hbody : body.DefsFree)
    (hdefs : ∀ e ∈ definitions, e.2.DefsFree) :
    ((∃ t, resolve (.defs definitions body) = .ok t) ↔
        ∀ name, Needed definitions body name → name ∈ Entries.keys definitions ∧ ¬ OnCycle definitions name) ∧
      (∀ t, resolve (.defs definitions body) = .ok t →
        ∃ tree, t = body.replaceRefs tree ∧ Unfolds definitions body tree ∧
          (∀ tree', Unfolds definitions body tree' → ∀ name, Needed definitions body name → tree' name = tree name) ∧
          ∀ c name, Call.Reaches true (.root (.defs definitions body)) c → c.schema = .ref name →
            resolveIn c.scope c.schema = .ok (tree name)) ∧
      ∀ e, resolve (.defs definitions body) = .error e →
        ∃ name, Needed definitions body name ∧
          (e = .unresolvedReference name ∧ name ∉ Entries.keys definitions ∨
            e = .cyclicReference name ∧ OnCycle definitions name) := by
  refine ⟨⟨?_, ?_⟩, ?_, ?_⟩
  · rintro ⟨t, h⟩ name hneeded
    obtain ⟨u, hu⟩ := Dictionary.exists_expands_of_needed hbody hdefs h hneeded
    obtain ⟨_, definition, hget, _⟩ := Dictionary.expands_iff.1 hu
    exact ⟨Entries.mem_keys_of_mem (Entries.mem_of_get? hget), Dictionary.not_onCycle_of_expands hdefs hu⟩
  · intro hall
    cases h : resolve (.defs definitions body) with
    | ok t => exact ⟨t, rfl⟩
    | error e =>
      obtain ⟨name, hneeded, ⟨_, hkey⟩ | ⟨_, hcycle⟩⟩ := Dictionary.needed_of_error hbody hdefs h
      · exact absurd (hall name hneeded).1 hkey
      · exact absurd hcycle (hall name hneeded).2
  · intro t h
    refine ⟨Dictionary.treeOf definitions, ?_, Dictionary.unfolds_treeOf hbody hdefs h, ?_, ?_⟩
    · exact (Dictionary.replaceRefs_treeOf hbody ((resolveIn_defs {} definitions body).symm.trans h)).symm
    · exact fun tree htree name hneeded => Dictionary.eq_treeOf_of_unfolds hbody hdefs h htree hneeded
    · exact fun c name hr hname => Dictionary.resolveIn_of_reaches hbody hdefs h hr hname
  · exact fun e h => Dictionary.needed_of_error hbody hdefs h

/-- Three definitions, of which two share the third. -/
theorem resolve_dictionary_shared :
    let x : Schema := .enumeration [.string "x"]
    let definitions := [("a", .anyOf [.ref "c", .ref "b"]), ("b", .uniform (.ref "c")), ("c", x)]
    let body : Schema := .sequence [.ref "a", .ref "b"]
    body.DefsFree ∧ (∀ e ∈ definitions, e.2.DefsFree) ∧
      resolve (.defs definitions body) = .ok (.sequence [.anyOf [x, .uniform x], .uniform x]) ∧
      ∀ name, Needed definitions body name → name ∈ ["a", "b", "c"] ∧ ¬ OnCycle definitions name := by
  intro x definitions body
  have hbody : body.DefsFree := hasDefs_eq_false_iff.1 rfl
  have hdefs : ∀ e ∈ definitions, e.2.DefsFree := by
    simp only [definitions, List.forall_mem_cons, ← hasDefs_eq_false_iff]
    exact ⟨rfl, rfl, rfl, fun _ h => absurd h List.not_mem_nil⟩
  have hres : resolve (.defs definitions body) = .ok (.sequence [.anyOf [x, .uniform x], .uniform x]) := by cbv
  exact ⟨hbody, hdefs, hres, (resolve_dictionary hbody hdefs).1.1 ⟨_, hres⟩⟩

end LintInference.Schema
