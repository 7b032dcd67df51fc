import LintInference.Command.Run
import LintInference.Proofs.Command.Settings
import LintInference.Proofs.Disk
import LintInference.Proofs.Linter.Replay

/-!
# How an inference treats files

The programs that a host runs may make files, but they write to none that is there (`Host.SparesFiles`). Then neither
does an inference, up to its last step: the registry and every question to the linter leave the files as they are, and
what comes before looks only.

The run itself ends in one of the ways of `Course`, and only the last of them writes. So whatever file is seen at some
time of the run (`During`) is there at the end, unless the run was allowed to replace it and had all that it wanted to
write (`infer_careful`).
-/

namespace LintInference

/-- Whatever a program is asked to do, the files that are there keep their contents. New ones may come. -/
def Host.SparesFiles (host : Host) : Prop :=
  ∀ (invocation : Invocation) (d : Disk), d.Spared (host invocation d).2

variable {host : Host}

namespace Linter

theorem at?_of_freshPlace? {d : Disk} {place : Place} (h : freshPlace? d = some place) : d.at? place = none := by
  simpa using List.find?_some h

/-- The file with the options comes where nothing is, and goes again. -/
theorem external_spares (h : host.SparesFiles) (settings : LinterSettings) (call : Call) (d : Disk) :
    d.Spared ((external host settings).check call d).2 := by
  simp only [external]
  cases hp : freshPlace? d with
  | none => exact .refl d
  | some place =>
    have hfree := Disk.contentAt?_eq_none (at?_of_freshPlace? hp)
    have hrun := (Disk.spared_put hfree (.file (Text.toBytes call.options.text) false)).trans
      (h (invocation settings place call.text) _)
    simp only
    split
    all_goals
      rename_i heq
      rw [heq] at hrun
      exact hrun.erase hfree

end Linter

theorem Registry.ofInstallation_spares (h : host.SparesFiles) (node : String) (directory : Option String) (d : Disk) :
    d.Spared (ofInstallation host node directory d).2 := by
  have hrun := h { program := node, arguments := ["-e", dumpScript], directory } d
  rw [ofInstallation]
  split
  all_goals
    rename_i heq
    rw [heq] at hrun
    exact hrun

namespace Command

/-! ## Parts of a run -/

namespace Task

variable {α β : Type} {m : Task α} {d : Disk}

theorem andThen_ok {a : α} (h : (m d).1 = .ok a) (f : α → Task β) : m.andThen f d = f a (m d).2 := by
  rw [andThen, ← Prod.eta (m d), h]

theorem andThen_error {e : Trouble} (h : (m d).1 = .error e) (f : α → Task β) :
    m.andThen f d = (.error e, (m d).2) := by
  rw [andThen, ← Prod.eta (m d), h]

end Task

@[simp] theorem loadConfiguration_snd (path : Option String) (d : Disk) : (loadConfiguration path d).2 = d := rfl

@[simp] theorem readSample_snd (path : String) (d : Disk) : (readSample path d).2 = d := rfl

/-- Without a configuration file all is left open. -/
theorem loadConfiguration_of_lacks {d : Disk} (hd : d.at? d.workingDirectory = some .directory)
    (h : Discovery.upwards? d.isFile d.workingDirectory.reverse = none) : (loadConfiguration none d).1 = .ok {} := by
  have hlook : d.lookUp "." = .ok (d.workingDirectory, .directory) := by
    rw [Disk.lookUp, Disk.locate_of_isName (by decide), Disk.follow, hd]
    simp [Disk.follow, hd, bind, Except.bind]
  have hdiscover : Configuration.discover d "." = .ok none := by
    rw [Configuration.discover, Discovery.find?, hlook]
    simp [h, bind, Except.bind, pure, Except.pure]
  simp [loadConfiguration, Task.look, Configuration.load, hdiscover, Except.mapError]

theorem loadRegistry_spares (h : host.SparesFiles) (c : Configuration) (d : Disk) :
    d.Spared (loadRegistry host c d).2 := by
  rw [loadRegistry]
  split
  next => exact .refl d
  next => exact Registry.ofInstallation_spares h _ _ d

theorem withLinter_ok {α : Type} {attempt : String} {engine : Engine Disk α} {d : Disk} {a : α}
    (h : (engine { options := .initial, state := d }).1 = .ok a) : (withLinter attempt engine d).1 = .ok a := by
  simp only [withLinter, h]
  rfl

theorem withLinter_error {α : Type} {attempt : String} {engine : Engine Disk α} {d : Disk} {e : Failure}
    (h : (engine { options := .initial, state := d }).1 = .error e) :
    (withLinter attempt engine d).1 = .error (.failed (some attempt) e) := by
  simp only [withLinter, h]
  rfl

/-- What is said of an outcome after its file was opened on a disk: there is space for it or not. -/
def Wrote (path : String) (i : Inferred) (d : Disk) (reply : Except Trouble Reply) : Prop :=
  reply = .ok (.written path i) ∧ d.holds (Text.toBytes i.pretty) = true ∨
    reply = .error (.unwritable path .noSpace) ∧ d.holds (Text.toBytes i.pretty) = false

/-- The file of an outcome is opened and written to, or the disk stays as it is. -/
theorem writeOutcome_cases (path : String) (overwrite : Bool) (i : Inferred) (d : Disk) :
    (∃ reply d', d.write path (d.held (Text.toBytes i.pretty)) (!overwrite) = .ok d' ∧ Wrote path i d reply ∧
      writeOutcome path overwrite i d = (reply, d')) ∨
    ∃ reply, (reply = .ok (.present path) ∨ ∃ e, reply = .error (.uncreatable path e)) ∧
      writeOutcome path overwrite i d = (reply, d) := by
  rw [writeOutcome]
  split
  next d' h =>
    refine .inl ⟨_, d', h, ?_, rfl⟩
    cases hspace : d.holds (Text.toBytes i.pretty) with
    | true => exact .inl ⟨if_pos rfl, hspace⟩
    | false => exact .inr ⟨if_neg Bool.false_ne_true, hspace⟩
  next => exact .inr ⟨_, .inl rfl, rfl⟩
  next e _ _ => exact .inr ⟨_, .inr ⟨e, rfl⟩, rfl⟩

/-! ## The ways of an inference -/

section Ways

variable (host : Host) (path : Option String) (r : InferRequest) (d : Disk)

/-- The run has its configuration and its sample, and nothing stands in its way. -/
structure Begun (loaded : Configuration) (sample : String) : Prop where
  configured : (loadConfiguration path d).1 = .ok loaded
  clear : (!r.toStdout && !(r.configuration loaded).overwrite && d.has (r.configuration loaded).outputPath) = false
  sampled : (readSample r.file d).1 = .ok sample

/-- The inference of a run that has begun: the linter is asked on the disk that loading the registry left. -/
def inference (loaded : Configuration) (sample : String) (registry : Registry) :
    Except Failure Inferred × Session Disk :=
  Inference.run (linterOf host (r.configuration loaded)) registry (r.selection loaded) sample
    { options := .initial, state := (loadRegistry host (r.configuration loaded) d).2 }

/-- The run has its registry, too. -/
structure Prepared (loaded : Configuration) (sample : String) (registry : Registry) : Prop
    extends Begun path r d loaded sample where
  registered : (loadRegistry host (r.configuration loaded) d).1 = .ok registry

/-- The run has all that it writes. -/
structure Succeeded (loaded : Configuration) (sample : String) (registry : Registry) (i : Inferred) : Prop
    extends Prepared host path r d loaded sample registry where
  inferred : (inference host r d loaded sample registry).1 = .ok i

/-- How a run ends, and with which disk. -/
inductive Course : Except Trouble Reply → Disk → Prop where
  | unready {e : Trouble} (h : ∀ loaded sample, ¬ Begun path r d loaded sample) : Course (.error e) d
  | present {loaded : Configuration} (configured : (loadConfiguration path d).1 = .ok loaded)
      (obstructed : (!r.toStdout && !(r.configuration loaded).overwrite &&
        d.has (r.configuration loaded).outputPath) = true) :
      Course (.ok (.present (r.configuration loaded).outputPath)) d
  | unregistered {loaded : Configuration} {sample : String} {e : Trouble} (begun : Begun path r d loaded sample)
      (failed : (loadRegistry host (r.configuration loaded) d).1 = .error e) :
      Course (.error e) (loadRegistry host (r.configuration loaded) d).2
  | failed {loaded : Configuration} {sample : String} {registry : Registry} {e : Failure}
      (prepared : Prepared host path r d loaded sample registry)
      (failed : (inference host r d loaded sample registry).1 = .error e) :
      Course (.error (.failed (some "Inference failed") e)) (inference host r d loaded sample registry).2.state
  | printed {loaded : Configuration} {sample : String} {registry : Registry} {i : Inferred}
      (succeeded : Succeeded host path r d loaded sample registry i) (printing : r.toStdout = true) :
      Course (.ok (.inferred i)) (inference host r d loaded sample registry).2.state
  | unwritten {loaded : Configuration} {sample : String} {registry : Registry} {i : Inferred}
      {reply : Except Trouble Reply} (succeeded : Succeeded host path r d loaded sample registry i)
      (why : reply = .ok (.present (r.configuration loaded).outputPath) ∨
        ∃ e, reply = .error (.uncreatable (r.configuration loaded).outputPath e)) :
      Course reply (inference host r d loaded sample registry).2.state
  | wrote {loaded : Configuration} {sample : String} {registry : Registry} {i : Inferred}
      {reply : Except Trouble Reply} {d' : Disk} (succeeded : Succeeded host path r d loaded sample registry i)
      (printing : r.toStdout = false)
      (write : (inference host r d loaded sample registry).2.state.write (r.configuration loaded).outputPath
        ((inference host r d loaded sample registry).2.state.held (Text.toBytes i.pretty))
        (!(r.configuration loaded).overwrite) = .ok d')
      (why : Wrote (r.configuration loaded).outputPath i (inference host r d loaded sample registry).2.state reply) :
      Course reply d'

/-- The disk at a time of the run when no program runs: at the start, with the registry loaded, or after questions to
the linter. What others do while a program runs is what the program leaves behind. -/
inductive During : Disk → Prop where
  | start : During d
  | registered {loaded : Configuration} {sample : String} (begun : Begun path r d loaded sample) :
      During (loadRegistry host (r.configuration loaded) d).2
  | asked {loaded : Configuration} {sample : String} {registry : Registry}
      (prepared : Prepared host path r d loaded sample registry) (n : Nat) :
      During ((linterOf host (r.configuration loaded)).replay (loadRegistry host (r.configuration loaded) d).2
        ((questions (inference host r d loaded sample registry).2.events).take n))

end Ways

variable {path : Option String} {r : InferRequest} {d : Disk} {loaded : Configuration} {sample : String}
  {registry : Registry}

/-- What is left of a run once it has its sample. -/
def afterSample (host : Host) (r : InferRequest) (loaded : Configuration) (sample : String) : Task Reply :=
  Task.andThen (loadRegistry host (r.configuration loaded)) fun registry =>
    Task.andThen (withLinter "Inference failed"
      (Inference.run (linterOf host (r.configuration loaded)) registry (r.selection loaded) sample)) fun i =>
        if r.toStdout then fun d => (.ok (.inferred i), d)
        else writeOutcome (r.configuration loaded).outputPath (r.configuration loaded).overwrite i

theorem withLinter_inference_snd (attempt : String) :
    (withLinter attempt (Inference.run (linterOf host (r.configuration loaded)) registry (r.selection loaded) sample)
      (loadRegistry host (r.configuration loaded) d).2).2 = (inference host r d loaded sample registry).2.state := rfl

theorem writeOutcome_course {i : Inferred} (succeeded : Succeeded host path r d loaded sample registry i)
    (printing : r.toStdout = false) {reply : Except Trouble Reply} {d' : Disk}
    (h : writeOutcome (r.configuration loaded).outputPath (r.configuration loaded).overwrite i
      (inference host r d loaded sample registry).2.state = (reply, d')) : Course host path r d reply d' := by
  obtain ⟨reply', d'', hw, why, hcase⟩ | ⟨reply', why, hcase⟩ := writeOutcome_cases
    (r.configuration loaded).outputPath (r.configuration loaded).overwrite i
    (inference host r d loaded sample registry).2.state
  · obtain ⟨rfl, rfl⟩ := Prod.mk.inj (hcase.symm.trans h)
    exact .wrote succeeded printing hw why
  · obtain ⟨rfl, rfl⟩ := Prod.mk.inj (hcase.symm.trans h)
    exact .unwritten succeeded why

theorem afterSample_course (begun : Begun path r d loaded sample) :
    Course host path r d (afterSample host r loaded sample d).1 (afterSample host r loaded sample d).2 := by
  rw [afterSample]
  cases hr : (loadRegistry host (r.configuration loaded) d).1 with
  | error e =>
    rw [Task.andThen_error hr]
    exact .unregistered begun hr
  | ok registry =>
    have prepared : Prepared host path r d loaded sample registry := ⟨begun, hr⟩
    rw [Task.andThen_ok hr]
    cases hi : (inference host r d loaded sample registry).1 with
    | error e =>
      rw [Task.andThen_error (withLinter_error hi), withLinter_inference_snd]
      dsimp only
      exact .failed prepared hi
    | ok i =>
      have succeeded : Succeeded host path r d loaded sample registry i := ⟨prepared, hi⟩
      rw [Task.andThen_ok (withLinter_ok hi), withLinter_inference_snd]
      cases hp : r.toStdout with
      | true =>
        rw [if_pos rfl]
        dsimp only
        exact .printed succeeded hp
      | false => exact writeOutcome_course succeeded hp rfl

/-- A run goes one of the ways. -/
theorem infer_course (host : Host) (path : Option String) (r : InferRequest) (d : Disk) :
    Course host path r d (infer host path r d).1 (infer host path r d).2 := by
  rw [infer]
  cases hc : (loadConfiguration path d).1 with
  | error e =>
    rw [Task.andThen_error hc]
    exact .unready fun _ _ hb => nomatch hc.symm.trans hb.configured
  | ok loaded =>
    rw [Task.andThen_ok hc, loadConfiguration_snd]
    simp only
    split
    next hpresent => exact .present hc hpresent
    next hclear =>
      cases hs : (readSample r.file d).1 with
      | error e =>
        rw [Task.andThen_error hs]
        exact .unready fun _ _ hb => nomatch hs.symm.trans hb.sampled
      | ok sample =>
        rw [Task.andThen_ok hs, readSample_snd]
        exact afterSample_course ⟨hc, Bool.eq_false_iff.2 hclear, hs⟩

/-! ## What is there during a run -/

theorem Begun.unique {loaded' : Configuration} {sample' : String} (b : Begun path r d loaded sample)
    (b' : Begun path r d loaded' sample') : loaded' = loaded ∧ sample' = sample :=
  ⟨Except.ok.inj (b'.configured.symm.trans b.configured), Except.ok.inj (b'.sampled.symm.trans b.sampled)⟩

/-- All questions of an inference together lead to the disk that it leaves. -/
theorem inference_state : (inference host r d loaded sample registry).2.state =
    (linterOf host (r.configuration loaded)).replay (loadRegistry host (r.configuration loaded) d).2
      (questions (inference host r d loaded sample registry).2.events) := by
  obtain ⟨es, hes, hstate⟩ := (Inference.run_composed (linterOf host (r.configuration loaded)) registry
    (r.selection loaded) sample).replays ⟨.initial, (loadRegistry host (r.configuration loaded) d).2, []⟩
  rw [inference, hstate, hes]
  rfl

/-- A run that does not begin is over at the start. -/
theorem During.eq_start {x : Disk} (hx : During host path r d x) (h : ∀ loaded sample, ¬ Begun path r d loaded sample) :
    x = d := by
  cases hx with
  | start => rfl
  | registered begun => exact absurd begun (h _ _)
  | asked prepared n => exact absurd prepared.toBegun (h _ _)

section Sparing

variable {x : Disk} (h : host.SparesFiles)

include h

theorem replay_spares (c : Configuration) (d : Disk) (calls : List Call) :
    d.Spared ((linterOf host c).replay d calls) :=
  Linter.replay_rel .refl (fun _ _ _ => .trans) (Linter.external_spares h c.linterSettings) d calls

/-- Where there is no registry, the run is over as soon as it is known. -/
theorem During.spared_unregistered {e : Trouble} (hx : During host path r d x) (begun : Begun path r d loaded sample)
    (failed : (loadRegistry host (r.configuration loaded) d).1 = .error e) :
    x.Spared (loadRegistry host (r.configuration loaded) d).2 := by
  cases hx with
  | start => exact loadRegistry_spares h _ d
  | registered begun' =>
    obtain ⟨rfl, rfl⟩ := begun.unique begun'
    exact .refl _
  | asked prepared n =>
    obtain ⟨rfl, rfl⟩ := begun.unique prepared.toBegun
    exact nomatch failed.symm.trans prepared.registered

/-- What is there at some time before the last step is there up to it. -/
theorem During.spared_inference (hx : During host path r d x)
    (prepared : Prepared host path r d loaded sample registry) :
    x.Spared (inference host r d loaded sample registry).2.state := by
  rw [inference_state]
  cases hx with
  | start => exact (loadRegistry_spares h _ d).trans (replay_spares h _ _ _)
  | registered begun =>
    obtain ⟨rfl, rfl⟩ := prepared.toBegun.unique begun
    exact replay_spares h _ _ _
  | asked prepared' n =>
    obtain ⟨rfl, rfl⟩ := prepared.toBegun.unique prepared'.toBegun
    obtain rfl := Except.ok.inj (prepared'.registered.symm.trans prepared.registered)
    -- the questions are those asked by then, and the others after them
    conv => arg 2; rw [← List.take_append_drop n (questions _), Linter.replay_append]
    exact replay_spares h _ _ _

/-- What is there at some time of a run is there at its end, unless the run has opened the file for its outcome. -/
theorem Course.spared_or_wrote {reply : Except Trouble Reply} {d' : Disk} (hc : Course host path r d reply d')
    (hx : During host path r d x) : x.Spared d' ∨
    ∃ loaded sample registry i, Succeeded host path r d loaded sample registry i ∧ r.toStdout = false ∧
      Wrote (r.configuration loaded).outputPath i (inference host r d loaded sample registry).2.state reply ∧
      (inference host r d loaded sample registry).2.state.write (r.configuration loaded).outputPath
        ((inference host r d loaded sample registry).2.state.held (Text.toBytes i.pretty))
        (!(r.configuration loaded).overwrite) = .ok d' ∧
      x.Spared (inference host r d loaded sample registry).2.state := by
  cases hc with
  | unready hnot =>
    rw [hx.eq_start hnot]
    exact .inl (.refl d)
  | present configured obstructed =>
    have hnot : ∀ loaded sample, ¬ Begun path r d loaded sample := fun loaded' _ begun => by
      obtain rfl := Except.ok.inj (configured.symm.trans begun.configured)
      exact Bool.false_ne_true (begun.clear.symm.trans obstructed)
    rw [hx.eq_start hnot]
    exact .inl (.refl d)
  | unregistered begun failed => exact .inl (hx.spared_unregistered h begun failed)
  | failed prepared failed => exact .inl (hx.spared_inference h prepared)
  | printed succeeded printing => exact .inl (hx.spared_inference h succeeded.toPrepared)
  | unwritten succeeded why => exact .inl (hx.spared_inference h succeeded.toPrepared)
  | wrote succeeded printing write why =>
    exact .inr ⟨_, _, _, _, succeeded, printing, why, write, hx.spared_inference h succeeded.toPrepared⟩

end Sparing

/-- What is printed or written is the outcome of an inference. -/
theorem Course.succeeded {reply : Except Trouble Reply} {d' : Disk} {i : Inferred}
    (hc : Course host path r d reply d') (hi : reply = .ok (.inferred i) ∨ ∃ p, reply = .ok (.written p i)) :
    ∃ loaded sample registry, Succeeded host path r d loaded sample registry i := by
  cases hc with
  | printed succeeded _ =>
    obtain ⟨⟨⟩⟩ | ⟨p, ⟨⟩⟩ := hi
    exact ⟨_, _, _, succeeded⟩
  | wrote succeeded _ _ why =>
    obtain ⟨rfl, _⟩ | ⟨rfl, _⟩ := why <;> obtain ⟨⟨⟩⟩ | ⟨p, ⟨⟩⟩ := hi
    exact ⟨_, _, _, succeeded⟩
  | unwritten succeeded why => obtain rfl | ⟨e, rfl⟩ := why <;> obtain ⟨⟨⟩⟩ | ⟨p, ⟨⟩⟩ := hi
  | unready _ | present _ _ | unregistered _ _ | failed _ _ => obtain ⟨⟨⟩⟩ | ⟨p, ⟨⟩⟩ := hi

/-- What was written is the outcome of an inference, in the place for it. -/
theorem Course.of_written {reply : Except Trouble Reply} {d' : Disk} {p : String} {i : Inferred}
    (hc : Course host path r d reply d') (hw : reply = .ok (.written p i)) :
    ∃ loaded sample registry, Succeeded host path r d loaded sample registry i ∧
      p = (r.configuration loaded).outputPath ∧ d'.read p = .ok (Text.toBytes i.pretty) := by
  cases hc with
  | wrote succeeded printing write why =>
    subst hw
    obtain ⟨hreply, hspace⟩ | ⟨⟨⟩, _⟩ := why
    cases hreply
    rw [Disk.held_eq_self hspace] at write
    exact ⟨_, _, _, succeeded, rfl, Disk.read_of_write write⟩
  | unwritten succeeded why =>
    obtain rfl | ⟨e, rfl⟩ := why <;> cases hw
  | unready _ | present _ _ | unregistered _ _ | failed _ _ | printed _ _ => cases hw

/-! ## The outcome -/

section Careful

variable (host : Host) (path : Option String) (r : InferRequest) (d : Disk)

/-- How an inference treats files. -/
structure Careful : Prop where
  /-- Something that is at the output path from the start, and may not be replaced, ends the run with nothing done. -/
  refused : ∀ loaded, (loadConfiguration path d).1 = .ok loaded → r.toStdout = false → r.force = false →
    loaded.overwrite = false → d.has (r.configuration loaded).outputPath = true →
      infer host path r d = (.ok (.present (r.configuration loaded).outputPath), d)
  /-- If neither the flags nor the configuration allow to replace files, each file that is there at some time of the run
  is there at its end, with the same content. -/
  kept : r.force = false → (∀ loaded, (loadConfiguration path d).1 = .ok loaded → loaded.overwrite = false) →
    ∀ x, During host path r d x → x.Spared (infer host path r d).2
  /-- If a file that is there at some time of the run is not there at its end with the same content, then all of the run
  succeeded, the file was allowed to be replaced, and it is the one at the output path. The run says that it has written
  the file, unless there is no space for the outcome. -/
  replaced : ∀ x, During host path r d x → ¬ x.Spared (infer host path r d).2 →
    ∃ loaded sample registry i, Succeeded host path r d loaded sample registry i ∧ r.toStdout = false ∧
      (r.force || loaded.overwrite) = true ∧
      Wrote (r.configuration loaded).outputPath i (inference host r d loaded sample registry).2.state
        (infer host path r d).1 ∧
      ∃ place, (inference host r d loaded sample registry).2.state.locate (r.configuration loaded).outputPath =
        .ok place ∧
        ∀ q content, q ≠ place → x.contentAt? q = some content → (infer host path r d).2.contentAt? q = some content
  /-- What was written is read back as the outcome of the inference. -/
  written : ∀ p i, (infer host path r d).1 = .ok (.written p i) →
    ∃ loaded sample registry, Succeeded host path r d loaded sample registry i ∧
      p = (r.configuration loaded).outputPath ∧ (infer host path r d).2.read p = .ok (Text.toBytes i.pretty)
  /-- An outcome that is only printed touches no file. -/
  printed : r.toStdout = true → ∀ x, During host path r d x → x.Spared (infer host path r d).2

end Careful

theorem infer_of_present (configured : (loadConfiguration path d).1 = .ok loaded) (hprint : r.toStdout = false)
    (hforce : r.force = false) (hkeep : loaded.overwrite = false)
    (hthere : d.has (r.configuration loaded).outputPath = true) :
    infer host path r d = (.ok (.present (r.configuration loaded).outputPath), d) := by
  have hobstructed : (!r.toStdout && !(r.configuration loaded).overwrite &&
      d.has (r.configuration loaded).outputPath) = true := by
    rw [hprint, r.overwrite_configuration, hforce, hkeep, hthere]
    rfl
  rw [infer, Task.andThen_ok configured, loadConfiguration_snd]
  exact if_pos hobstructed

/-- An inference is careful with files, whatever the programs print and whatever new files they make: it fails before it
writes, it writes to no file that is there unless it may, and what it writes is its outcome. -/
theorem infer_careful (h : host.SparesFiles) (path : Option String) (r : InferRequest) (d : Disk) :
    Careful host path r d where
  refused _ configured hprint hforce hkeep hthere := infer_of_present configured hprint hforce hkeep hthere
  kept hforce hkeep x hx := by
    obtain hspared | ⟨loaded, _, _, _, succeeded, _, _, write, hspared⟩ :=
      (infer_course host path r d).spared_or_wrote h hx
    · exact hspared
    · rw [r.overwrite_configuration, hforce, hkeep loaded succeeded.configured] at write
      exact hspared.trans (Disk.spared_of_write write)
  replaced x hx hnot := by
    obtain hspared | ⟨loaded, sample, registry, i, succeeded, hprint, hreply, write, hspared⟩ :=
      (infer_course host path r d).spared_or_wrote h hx
    · exact absurd hspared hnot
    · rw [r.overwrite_configuration] at write
      cases hleave : r.force || loaded.overwrite with
      | true =>
        obtain ⟨place, hplace, hothers⟩ := Disk.contentAt?_of_write write
        exact ⟨loaded, sample, registry, i, succeeded, hprint, hleave, hreply, place, hplace,
          fun q content hq hx => (hothers q hq).trans (hspared q content hx)⟩
      | false =>
        rw [hleave] at write
        exact absurd (hspared.trans (Disk.spared_of_write write)) hnot
  written p i hw := (infer_course host path r d).of_written hw
  printed hprint x hx := by
    obtain hspared | ⟨_, _, _, _, _, hnot, _⟩ := (infer_course host path r d).spared_or_wrote h hx
    · exact hspared
    · exact nomatch hprint.symm.trans hnot

/-- A host with programs that make a file where the outcome is to go, unless there is one. -/
def intruder : Host := fun invocation d =>
  (.ok { ending := .status 0, output := Text.toBytes (if invocation.program = "node" then "\x7b\x7d" else "[]") },
    if d.at? ["out"] = none then d.put ["out"] (.file [0x31] false) else d)

theorem intruder_spares : intruder.SparesFiles := by
  intro invocation d
  simp only [intruder]
  split
  next h => exact Disk.spared_put (Disk.contentAt?_eq_none h) _
  next => exact .refl d

/-- What the intruder makes while the registry is loaded is there at the end. -/
theorem infer_careful_intruder :
    let d : Disk := { entries := [(["a"], .file [0x78, 0x0a] false)] }
    let r : InferRequest := { file := "a", output := some "out" }
    intruder.SparesFiles ∧ d.contentAt? ["out"] = none ∧
      (∃ x, During intruder none r d x ∧ x.contentAt? ["out"] = some [0x31]) ∧
      (infer intruder none r d).2.contentAt? ["out"] = some [0x31] := by
  intro d r
  have configured : (loadConfiguration none d).1 = .ok {} := loadConfiguration_of_lacks rfl rfl
  have clear : d.has "out" = false := by
    rw [Disk.has, Disk.lookUp, Disk.locate_of_isName (by decide)]
    rfl
  have sampled : d.readText "a" = .ok "x\n" := by
    rw [Disk.readText, Disk.read_of_isName (by decide) (by decide) (by decide) rfl rfl]
    rfl
  have begun : Begun none r d {} "x\n" := by
    refine ⟨configured, clear, ?_⟩
    rw [readSample, Task.look, sampled]
    rfl
  have made : (loadRegistry intruder (r.configuration {}) d).2.contentAt? ["out"] = some [0x31] := by
    rw [loadRegistry, Configuration.schemasPath?]
    rfl
  refine ⟨intruder_spares, rfl, ⟨_, .registered begun, made⟩, ?_⟩
  refine (infer_careful intruder_spares none r d).kept rfl (fun loaded hloaded => ?_) _ (.registered begun) _ _ made
  obtain rfl := Except.ok.inj (configured.symm.trans hloaded)
  rfl

end Command

end LintInference
