import LintInference.Shell.Host

/-!
# What a running script keeps

A script takes nothing back that it has written, and its name stays (`State.Before`). Each step keeps this: a command of
the shell (`Builtin.before_of_mem`), a tool (`State.before_take`), and what is written through redirections
(`Channels.before_deliver`). Running goes through all commands together, and the induction is on the number of steps
(`keepsAt`). So what a command writes follows what was written before it (`textOn_run`).

What runs in subshells leaves the variables, the parameters and the functions of the script alone, and the script stays
in its directory (`run_apart`). A program leaves its caller in the caller's directory (`host_workingDirectory`).
-/

namespace LintInference.Shell

namespace State

/-- The second state may come after the first one in a script: it has that one's name and all that was written. -/
structure Before (s s' : State) : Prop where
  written : s.written <:+ s'.written
  name : s'.name = s.name

variable {s s' s'' : State} {α : Type}

theorem Before.of_eq (hw : s'.written = s.written) (hn : s'.name = s.name) : s.Before s' :=
  ⟨hw ▸ List.suffix_refl _, hn⟩

protected theorem Before.refl (s : State) : s.Before s := .of_eq rfl rfl

theorem Before.trans (h : s.Before s') (h' : s'.Before s'') : s.Before s'' :=
  ⟨h.written.trans h'.written, h'.name.trans h.name⟩

theorem Before.of_snd_eq {r : α × State} {a : α} (h : s.Before r.2) (heq : r = (a, s')) : s.Before s' := by
  rwa [heq] at h

theorem Before.of_fst_eq {r : State × α} {a : α} (h : s.Before r.1) (heq : r = (s', a)) : s.Before s' := by
  rwa [heq] at h

theorem before_write (s : State) (descriptor : Nat) (t : Raw) : s.Before (s.write descriptor t) := by
  rw [write]
  split
  · exact .refl s
  · exact ⟨List.suffix_cons _ _, rfl⟩

theorem before_complain (s : State) (line : Nat) (what : List String) (status : Nat) :
    s.Before (s.complain line what status) := by
  have h := s.before_write 2 (s.name ++ ": ".toList ++ Raw.ofString (ToString.toString line) ++
    (what.flatMap fun w => ": ".toList ++ Raw.ofString w) ++ ['\n'])
  exact ⟨h.written, h.name⟩

theorem before_take (s : State) (o : Outcome) : s.Before (s.take o) := by
  have h := (s.before_write 1 o.output).trans (before_write _ 2 o.errors)
  exact ⟨h.written, h.name⟩

theorem before_publish (s : State) (name : String) : s.Before (s.publish name) := by
  rw [publish]
  split <;> exact .of_eq rfl rfl

theorem before_foldl {f : State → α → State} (h : ∀ (s : State) a, s.Before (f s a)) (as : List α) (s : State) :
    s.Before (as.foldl f s) := by
  induction as generalizing s with
  | nil => exact .refl s
  | cons a as ih => exact (h s a).trans (ih _)

theorem before_restore (s old : State) (names : List String) : s.Before (s.restore old names) := by
  refine (Before.of_eq rfl rfl : s.Before { s with exported := old.exported }).trans (before_foldl ?_ names _)
  intro s name
  split <;> exact .of_eq rfl rfl

theorem before_takeWritten (s sub : State) (kept : Nat → Bool) : s.Before (s.takeWritten sub kept) :=
  ⟨List.suffix_append _ _, rfl⟩

/-- A subshell adds what it has written to what was written before it. -/
theorem before_afterSubshell (s sub : State) (kept : Nat → Bool) :
    s.Before ((s.afterSubshell sub).takeWritten sub kept) :=
  (Before.of_eq rfl rfl : s.Before (s.afterSubshell sub)).trans (before_takeWritten _ sub kept)

end State

open State (Before)

variable {n : Nat} {s : State}

/-! ## Commands of the shell -/

namespace Builtin

theorem before_succeed {s' : State} (h : s.Before s') : s.Before (succeed s') := ⟨h.written, h.name⟩

theorem before_publish (args : List Raw) (s : State) : s.Before (publish n args s) := by
  refine before_succeed (State.before_foldl (fun s t => ?_) args s)
  dsimp only
  split
  · exact (Before.of_eq rfl rfl : s.Before (s.assign _ _)).trans (State.before_publish _ _)
  · exact s.before_publish _

theorem before_declare (args : List Raw) (s : State) : s.Before (declare n args s) := by
  refine before_succeed (State.before_foldl (fun s t => ?_) args s)
  split <;> exact .of_eq rfl rfl

theorem before_unset (args : List Raw) (s : State) : s.Before (unset n args s) := by
  refine before_succeed (State.before_foldl (fun s t => ?_) args s)
  split <;> exact .of_eq rfl rfl

theorem before_shift (args : List Raw) (s : State) : s.Before (shift n args s) := by
  rw [shift]
  split
  · exact .of_eq rfl rfl
  · have h := s.before_complain n ["shift", "can't shift that many"] 2
    exact ⟨h.written, h.name⟩

theorem before_change (ts : List Raw) (s : State) : s.Before (set.change s ts) := by
  induction ts generalizing s with
  | nil => exact .refl s
  | cons t ts ih =>
    have hstrict (b : Bool) : s.Before (set.change { s with strict := b } ts) :=
      (Before.of_eq rfl rfl : s.Before { s with strict := b }).trans (ih _)
    rw [set.change.eq_def]
    dsimp only
    split
    · exact .of_eq rfl rfl
    · split
      · split
        · exact hstrict true
        · exact ih s
      · split
        · exact hstrict false
        · exact ih s
      · exact .of_eq rfl rfl

theorem before_changeDirectory (args : List Raw) (s : State) : s.Before (changeDirectory n args s) := by
  rw [changeDirectory]
  dsimp only
  split
  · exact .of_eq rfl rfl
  · exact s.before_complain _ _ _

theorem before_distribute (separators : Raw) (names : List String) (s : State) (t : Raw) :
    s.Before (distribute separators s names t) := by
  induction names generalizing s t with
  | nil => exact .refl s
  | cons name names ih =>
    cases names with
    | nil => exact .of_eq rfl rfl
    | cons name' names =>
      exact (Before.of_eq rfl rfl : s.Before (s.assign name (firstField separators t).1)).trans (ih _ _)

theorem before_read (args : List Raw) (s : State) : s.Before (read n args s) := by
  have h (t : Raw) (names : List String) (rest : Raw) :
      s.Before (distribute s.separators { s with input := rest } names t) :=
    (Before.of_eq rfl rfl : s.Before { s with input := rest }).trans (before_distribute _ _ _ _)
  exact ⟨(h _ _ _).written, (h _ _ _).name⟩

theorem before_kill (args : List Raw) (s : State) : s.Before (kill n args s) := by
  rw [kill]
  dsimp only
  split
  · split <;> exact .of_eq rfl rfl
  · exact s.before_complain _ _ _

/-- A command of the shell keeps what was written. -/
theorem before_of_mem : ∀ e ∈ all, ∀ line args (s : State), s.Before (e.2 line args s) := by
  simp only [all, List.forall_mem_cons, List.not_mem_nil, false_imp_iff, implies_true, and_true]
  exact ⟨fun _ _ _ => .of_eq rfl rfl, fun _ _ _ => .of_eq rfl rfl, fun _ _ _ => .of_eq rfl rfl,
    fun _ => before_publish, fun _ => before_declare, fun _ => before_declare, fun _ => before_unset,
    fun _ => before_shift, fun _ args s => before_succeed (before_change args s), fun _ => before_changeDirectory,
    fun _ => before_read, fun _ => before_kill, fun _ _ _ => .of_eq rfl rfl, fun _ _ _ => .of_eq rfl rfl,
    fun _ _ _ => .of_eq rfl rfl, fun _ _ _ => .of_eq rfl rfl, fun _ _ _ => .of_eq rfl rfl⟩

end Builtin

/-! ## Redirections -/

namespace Channels

theorem before_deliver (c : Channels) (chunks : List (Nat × Raw)) (s : State) : s.Before (c.deliver chunks s) := by
  induction chunks generalizing s with
  | nil => exact .refl s
  | cons chunk chunks ih =>
    rw [deliver]
    refine Before.trans ?_ (ih _)
    split
    · exact s.before_write _ _
    · exact .refl s
    · split
      · exact .of_eq rfl rfl
      · exact .refl s

theorem before_openFile (line : Nat) (c : Channels) (s : State) (descriptor : Nat) (mode : Mode) (path : Raw) :
    s.Before (c.openFile line s descriptor mode path).2 := by
  have hfailed (creating : Bool) (e : OsError) := s.before_complain line
    [(if creating then "cannot create " else "cannot open ") ++ Raw.toString path, refusal creating e] 2
  rw [openFile.eq_def]
  dsimp only
  split
  · exact .refl s
  · exact .refl s
  · exact .refl s
  · exact .refl s
  · exact .refl s
  · split
    · exact .refl s
    · exact hfailed false _
  · split
    · exact .of_eq rfl rfl
    · exact hfailed true _

end Channels

/-! ## Running -/

/-- With so many steps, what runs keeps what was written. -/
structure KeepsAt (n : Nat) : Prop where
  expandPart : ∀ p (s : State), s.Before (expandPart n p s).2
  expand : ∀ w (s : State), s.Before (expand n w s).2
  textOf : ∀ w (s : State), s.Before (textOf n w s).2
  fieldsOfWords : ∀ ws (s : State), s.Before (fieldsOfWords n ws s).2
  assignAll : ∀ ws (s : State), s.Before (assignAll n ws s)
  openAll : ∀ line rs c (s : State), s.Before (openAll line n rs c s).2
  fits : ∀ ps t (s : State), s.Before (fits n ps t s).2
  runChoice : ∀ branches t (s : State), s.Before (runChoice n branches t s)
  runAll : ∀ cs (s : State), s.Before (runAll n cs s)
  runTested : ∀ cs (s : State), s.Before (runTested n cs s)
  runEach : ∀ name body ts (s : State), s.Before (runEach name body n ts s)
  runPiped : ∀ cs (s : State), s.Before (runPiped n cs s)
  run : ∀ c (s : State), s.Before (run n c s)
  call : ∀ line name args (s : State), s.Before (call n line name args s)
  runText : ∀ t (s : State), s.Before (runText n t s)

theorem before_heed {s' : State} (h : s.Before s') : s.Before (heed s') := by
  rw [heed]
  split
  · exact ⟨h.written, h.name⟩
  · exact h

theorem before_afterRound {s' : State} (h : s.Before s') : s.Before (afterRound s').1 := by
  rw [afterRound]
  split
  · exact h
  · exact ⟨h.written, h.name⟩
  · split <;> exact ⟨h.written, h.name⟩
  · exact h

theorem before_afterCall {s' caller : State} (h : s.Before s') : s.Before (afterCall s' caller) :=
  ⟨h.written, h.name⟩

theorem before_expandPart (ih : KeepsAt n) (p : Part) (s : State) : s.Before (expandPart (n + 1) p s).2 := by
  match p with
  | .plain _ | .quoted _ | .length _ _ => exact .refl s
  | .variable name isQuoted =>
    rw [expandPart]
    dsimp only
    split <;> exact .refl s
  | .altered name colon how word isQuoted =>
    have h := ih.expand word s
    cases how with
    | orElse | instead =>
      rw [expandPart]
      dsimp only
      split
      · first | exact h | exact .refl s
      · first | exact h | exact .refl s
    | assign =>
      rw [expandPart]
      dsimp only
      split
      · exact ⟨h.written, h.name⟩
      · exact .refl s
    | _ => exact h
  | .output script isQuoted =>
    rw [expandPart]
    exact s.before_afterSubshell (runAll n script s.subshell) (· = 1)
  | .arithmetic w isQuoted =>
    have h := ih.expand w s
    rw [expandPart]
    dsimp only
    split
    · rename_i v target _
      cases target with
      | none => exact h
      | some name => exact ⟨h.written, h.name⟩
    · have h' := h.trans (State.before_complain _ 1 ["arithmetic expression"] 2)
      exact ⟨h'.written, h'.name⟩

theorem before_expand (ih : KeepsAt n) (w : Word) (s : State) : s.Before (expand (n + 1) w s).2 := by
  cases w with
  | nil => exact .refl s
  | cons p w => exact (ih.expandPart p s).trans (ih.expand w _)

theorem before_fieldsOfWords (ih : KeepsAt n) (ws : List Word) (s : State) :
    s.Before (fieldsOfWords (n + 1) ws s).2 := by
  cases ws with
  | nil => exact .refl s
  | cons w ws =>
    rw [fieldsOfWords.eq_def]
    dsimp only
    split
    · exact ih.fieldsOfWords ws s
    · exact (ih.expand _ s).trans (ih.fieldsOfWords ws _)

theorem before_assignAll (ih : KeepsAt n) (ws : List (String × Word)) (s : State) :
    s.Before (assignAll (n + 1) ws s) := by
  cases ws with
  | nil => exact .refl s
  | cons a ws =>
    have h := ih.textOf a.2 s
    have h' : s.Before ((textOf n a.2 s).2.assign a.1 (textOf n a.2 s).1) := ⟨h.written, h.name⟩
    exact h'.trans (ih.assignAll ws _)

theorem before_openAll (ih : KeepsAt n) (line : Nat) (rs : List Redirection) (c : Channels) (s : State) :
    s.Before (openAll line (n + 1) rs c s).2 := by
  cases rs with
  | nil => exact .refl s
  | cons r rs =>
    cases r with
    | text w => exact (ih.textOf w s).trans (ih.openAll line rs _ _)
    | copy descriptor source => exact (ih.textOf source s).trans (ih.openAll line rs _ _)
    | file descriptor mode path =>
      rw [openAll]
      dsimp only
      have h := (ih.textOf path s).trans (c.before_openFile line _ descriptor mode (textOf n path s).1)
      split
      next c' s' heq => exact (h.of_snd_eq heq).trans (ih.openAll line rs c' s')
      next s' heq => exact h.of_snd_eq heq

theorem before_fits (ih : KeepsAt n) (ps : List Word) (t : Raw) (s : State) : s.Before (fits (n + 1) ps t s).2 := by
  cases ps with
  | nil => exact .refl s
  | cons p ps =>
    rw [fits]
    dsimp only
    split
    · exact ih.expand p s
    · exact (ih.expand p s).trans (ih.fits ps t _)

theorem before_runChoice (ih : KeepsAt n) (branches : List (List Word × List Command)) (t : Raw) (s : State) :
    s.Before (runChoice (n + 1) branches t s) := by
  cases branches with
  | nil => exact .of_eq rfl rfl
  | cons branch branches =>
    have h := ih.fits branch.1 t s
    rw [runChoice]
    split
    next s' heq =>
      have h' := h.of_snd_eq heq
      exact (⟨h'.written, h'.name⟩ : s.Before { s' with status := 0 }).trans (ih.runAll _ _)
    next s' heq => exact (h.of_snd_eq heq).trans (ih.runChoice branches t s')

theorem before_runAll (ih : KeepsAt n) (cs : List Command) (s : State) : s.Before (runAll (n + 1) cs s) := by
  cases cs with
  | nil => exact .refl s
  | cons c cs =>
    rw [runAll]
    split
    · exact .refl s
    · exact (ih.run c s).trans (ih.runAll cs _)

theorem before_runTested (ih : KeepsAt n) (cs : List Command) (s : State) : s.Before (runTested (n + 1) cs s) := by
  have h := (Before.of_eq rfl rfl : s.Before { s with tested := true }).trans (ih.runAll cs _)
  exact ⟨h.written, h.name⟩

theorem before_runEach (ih : KeepsAt n) (name : String) (body : List Command) (ts : List Raw) (s : State) :
    s.Before (runEach name body (n + 1) ts s) := by
  cases ts with
  | nil => exact .refl s
  | cons t ts =>
    have h := before_afterRound ((Before.of_eq rfl rfl : s.Before (s.assign name t)).trans (ih.runAll body _))
    rw [runEach]
    split
    next s' heq => exact (h.of_fst_eq heq).trans (ih.runEach name body ts s')
    next s' heq => exact h.of_fst_eq heq

theorem before_runPiped (ih : KeepsAt n) (cs : List Command) (s : State) : s.Before (runPiped (n + 1) cs s) := by
  match cs with
  | [] => exact .refl s
  | [c] =>
    rw [runPiped]
    exact s.before_afterSubshell _ _
  | c :: c' :: cs =>
    rw [runPiped.eq_def]
    let sub := run n c { s.subshell with tested := true }
    have hfirst : s.Before { (s.afterSubshell sub).takeWritten sub (· = 1) with input := sub.textOn 1 } :=
      ⟨(s.before_afterSubshell sub (· = 1)).written, rfl⟩
    have h := hfirst.trans (ih.runPiped (c' :: cs) _)
    exact ⟨h.written, h.name⟩

theorem before_simple (ih : KeepsAt n) (line : Nat) (assignments : List (String × Word)) (words : List Word)
    (s : State) : s.Before (run (n + 1) (.simple line assignments words) s) := by
  have hwords : s.Before { s with status := if words.isEmpty then 0 else s.status } := .of_eq rfl rfl
  have hfields := hwords.trans (ih.fieldsOfWords words _)
  have hassigned := hfields.trans (ih.assignAll assignments _)
  rw [run.eq_def]
  dsimp only
  split
  · exact before_heed hassigned
  next name arguments _ =>
    have hown := hassigned.trans
      (State.before_foldl (fun s (a : String × Word) => s.before_publish a.1) assignments _)
    have hcall := hown.trans (ih.call line name arguments _)
    refine before_heed ?_
    split
    · exact hcall
    · exact hcall.trans (State.before_restore _ _ _)

theorem before_redirected (ih : KeepsAt n) (body : Command) (redirections : List Redirection) (s : State) :
    s.Before (run (n + 1) (.redirected body redirections) s) := by
  have hopen := ih.openAll (lineOf body) redirections {} s
  rw [run.eq_def]
  dsimp only
  split
  next s' heq => exact before_heed (hopen.of_snd_eq heq)
  next channels s' heq =>
    refine (hopen.of_snd_eq heq).trans (Before.trans ?_ (channels.before_deliver _ _))
    -- The body starts with nothing written, so only the name comes from its run.
    exact ⟨List.suffix_refl _, (ih.run body _).name⟩

theorem before_conditional (ih : KeepsAt n) (test body otherwise : List Command) (s : State) :
    s.Before (run (n + 1) (.conditional test body otherwise) s) := by
  have h := ih.runTested test s
  have hstatus : s.Before { runTested n test s with status := 0 } := ⟨h.written, h.name⟩
  rw [run]
  split
  · exact h
  · split
    · exact h.trans (ih.runAll body _)
    · exact hstatus.trans (ih.runAll otherwise _)

theorem before_loop (ih : KeepsAt n) (whileTrue : Bool) (test body : List Command) (s : State) :
    s.Before (run (n + 1) (.loop whileTrue test body) s) := by
  have h := ih.runTested test s
  rw [run]
  split
  · exact before_afterRound h
  · split
    · have hround := before_afterRound (h.trans (ih.runAll body _))
      split
      next s' heq => exact (hround.of_fst_eq heq).trans (ih.run _ s')
      next s' heq => exact hround.of_fst_eq heq
    · exact ⟨h.written, h.name⟩

theorem before_each (ih : KeepsAt n) (name : String) (words : Option (List Word)) (body : List Command) (s : State) :
    s.Before (run (n + 1) (.each name words body) s) := by
  have hstatus (s' : State) (h : s.Before s') : s.Before { s' with status := 0 } := ⟨h.written, h.name⟩
  rw [run.eq_def]
  cases words with
  | none => exact (hstatus s (.refl s)).trans (ih.runEach name body _ _)
  | some ws => exact (hstatus _ (ih.fieldsOfWords ws s)).trans (ih.runEach name body _ _)

theorem before_run (ih : KeepsAt n) (c : Command) (s : State) : s.Before (run (n + 1) c s) := by
  cases c with
  | simple line assignments words => exact before_simple ih line assignments words s
  | redirected body redirections => exact before_redirected ih body redirections s
  | group body => exact ih.runAll body s
  | subshell body => exact before_heed (s.before_afterSubshell _ _)
  | conditional test body otherwise => exact before_conditional ih test body otherwise s
  | loop whileTrue test body => exact before_loop ih whileTrue test body s
  | each name words body => exact before_each ih name words body s
  | choose word branches => exact (ih.textOf word s).trans (ih.runChoice branches _ _)
  | define name body => exact .of_eq rfl rfl
  | pipeline commands => exact before_heed (ih.runPiped commands s)
  | negate c =>
    have h := ih.runTested [c] s
    exact ⟨h.written, h.name⟩
  | both a b =>
    have h := ih.runTested [a] s
    rw [run]
    split
    · exact h
    · exact h.trans (ih.run b _)
  | either a b =>
    have h := ih.runTested [a] s
    rw [run]
    split
    · exact h
    · exact h.trans (ih.run b _)

theorem before_call (ih : KeepsAt n) (line : Nat) (name : Raw) (args : List Raw) (s : State) :
    s.Before (call (n + 1) line name args s) := by
  have hfailed (what : List String) : s.Before { s.complain line what 2 with stop := some .exit } :=
    ⟨(s.before_complain line what 2).written, (s.before_complain line what 2).name⟩
  have hwritten (t : Raw) : s.Before { s.write 1 t with status := 0 } :=
    ⟨(s.before_write 1 t).written, (s.before_write 1 t).name⟩
  rw [call.eq_def]
  dsimp only
  split
  · exact before_afterCall ((Before.of_eq rfl rfl : s.Before { s with parameters := args }).trans (ih.run _ _))
  · split
    next builtin heq =>
      obtain ⟨before, after, hall, -⟩ := List.lookup_eq_some_iff.1 heq
      exact Builtin.before_of_mem (Raw.toString name, builtin) (by simp [hall]) line args s
    next =>
      split
      · exact ih.runText _ s
      · split
        · exact before_afterCall (ih.runText _ s)
        · exact hfailed _
      · exact s.before_take _
      · exact .of_eq rfl rfl
      next program arguments _ =>
        have h := ih.call line program arguments s
        exact ⟨h.written, h.name⟩
      · split
        · split
          · exact hwritten _
          · exact .of_eq rfl rfl
        · exact ih.call line _ _ s
        · exact .of_eq rfl rfl
      · split
        · exact s.before_take _
        · split
          · exact s.before_take _
          · exact .of_eq rfl rfl
        · exact s.before_complain _ _ _
        · exact s.before_complain _ _ _

theorem before_runText (ih : KeepsAt n) (t : Raw) (s : State) : s.Before (runText (n + 1) t s) := by
  rw [runText]
  split
  · exact (Before.of_eq rfl rfl : s.Before { s with status := 0 }).trans (ih.runAll _ _)
  · have h := s.before_complain 1 ["Syntax error"] 2
    exact ⟨h.written, h.name⟩

/-- However many steps there are. -/
theorem keepsAt (n : Nat) : KeepsAt n := by
  induction n with
  | zero =>
    exact ⟨fun _ => .refl, fun _ => .refl, fun _ => .refl, fun _ => .refl, fun _ => .refl, fun _ _ _ => .refl,
      fun _ _ => .refl, fun _ _ => .refl, fun _ => .refl, fun _ => .refl, fun _ _ _ => .refl, fun _ => .refl,
      fun _ => .refl, fun _ _ _ => .refl, fun _ => .refl⟩
  | succ n ih =>
    exact ⟨before_expandPart ih, before_expand ih, fun w s => ih.expand w s, before_fieldsOfWords ih, before_assignAll ih,
      before_openAll ih, before_fits ih, before_runChoice ih, before_runAll ih, before_runTested ih, before_runEach ih,
      before_runPiped ih, before_run ih, before_call ih, before_runText ih⟩

/-- What a command writes to a descriptor comes after what was written to it before. -/
theorem textOn_run (n : Nat) (c : Command) (s : State) (descriptor : Nat) :
    s.textOn descriptor <+: (run n c s).textOn descriptor := by
  obtain ⟨chunks, hchunks⟩ := ((keepsAt n).run c s).written
  rw [State.textOn, State.textOn, ← hchunks, List.reverse_append, List.filter_append, List.flatMap_append]
  exact List.prefix_append _ _

/-! ## Subshells -/

/-- The second state has the variables, the parameters, the functions and the directory of the first one. -/
structure State.Apart (s s' : State) : Prop where
  bindings : s'.bindings = s.bindings
  exported : s'.exported = s.exported
  parameters : s'.parameters = s.parameters
  functions : s'.functions = s.functions
  directory : s'.disk.workingDirectory = s.disk.workingDirectory

theorem apart_heed {s' : State} (h : s.Apart s') : s.Apart (heed s') := by
  rw [heed]
  split
  · exact ⟨h.bindings, h.exported, h.parameters, h.functions, h.directory⟩
  · exact h

theorem runPiped_apart (n : Nat) (cs : List Command) (s : State) : s.Apart (runPiped n cs s) := by
  induction n generalizing cs s with
  | zero => exact ⟨rfl, rfl, rfl, rfl, rfl⟩
  | succ n ih =>
    match cs with
    | [] => exact ⟨rfl, rfl, rfl, rfl, rfl⟩
    | [c] =>
      rw [runPiped]
      exact ⟨rfl, rfl, rfl, rfl, rfl⟩
    | c :: c' :: cs =>
      rw [runPiped.eq_def]
      obtain ⟨hb, he, hp, hf, hd⟩ := ih (c' :: cs) _
      exact ⟨hb, he, hp, hf, hd⟩

/-- A subshell, or a pipeline, leaves the script as it was but for files, input, output and status. -/
theorem run_apart (n : Nat) {c : Command} (h : (∃ body, c = .subshell body) ∨ ∃ cs, c = .pipeline cs) (s : State) :
    s.Apart (run n c s) := by
  cases n with
  | zero => exact ⟨rfl, rfl, rfl, rfl, rfl⟩
  | succ n =>
    rcases h with ⟨body, rfl⟩ | ⟨cs, rfl⟩
    · rw [run]
      exact apart_heed ⟨rfl, rfl, rfl, rfl, rfl⟩
    · rw [run]
      exact apart_heed (runPiped_apart n cs s)

/-- A program runs in a directory of its own; the one of its caller stays. -/
theorem host_workingDirectory (environment : Entries String) (i : Invocation) (d : Disk) :
    (host environment i d).2.workingDirectory = d.workingDirectory := by
  rw [host]
  dsimp only
  split <;> rfl

end LintInference.Shell
