import MarkupTemplate.Session
import MarkupTemplate.Proofs.Desk

/-!
# Compilers and registries in a session

A compiler keeps the engines it has made, and the registry it makes them from can change in between.
It answers what a new compiler answers whose registry gives each name the engine registered when the
compiler first met the name, or else the one that is registered now (`session_isolated`). What a
compiler has met is read off the calls to it (`held`), not off its own list, and its notes on
earlier templates do not matter, whatever they are.
-/

namespace MarkupTemplate.Session

open Embedded (Registry Cache Engine overlay Extends)

/-! ## Things by name -/

variable {α : Type} {w : Setting} {id : Text} {source : Source} {s : Session} {c : Compiler}

theorem lookup_put (name key : Text) (thing : α) (things : List (Text × α)) :
    (put name thing things).lookup key = if key = name then some thing else things.lookup key := by
  induction things with
  | nil =>
    by_cases same : key = name
    · simp [put, same]
    · simp [put, same, List.lookup_cons, beq_eq_false_iff_ne.mpr same]
  | cons first rest ih =>
    obtain ⟨other, old⟩ := first
    rw [put]
    split
    next here =>
      subst here
      by_cases same : key = other
      · simp [same]
      · simp [same, List.lookup_cons, beq_eq_false_iff_ne.mpr same]
    next apart =>
      rw [List.lookup_cons, List.lookup_cons, ih]
      by_cases same : key = other
      · simp [same, apart]
      · rw [beq_eq_false_iff_ne.mpr same]

theorem register_eq_put (r : Registry) (name : Text) (engine : Engine) :
    r.register name engine = put name engine r := by
  induction r with
  | nil => rfl
  | cons first rest ih => rw [Registry.register, put, ih]

theorem find?_register (r : Registry) (name key : Text) (engine : Engine) :
    (r.register name engine).find? key = if key = name then some engine else r.find? key := by
  rw [register_eq_put]
  exact lookup_put name key engine r

/-! ## Calls -/

/-- A call to a compiler: its registry at the time, and the template. -/
structure Call where
  registry : Registry
  source : Source

/-- The compiler that a command calls, and the template. -/
def Command.call? : Command → Option (Text × Source)
  | .transform id source | .generate id source | .compile id _ source => some (id, source)
  | _ => none

/-- The engines that a compiler holds after some calls, the last one first. An engine is made from
what is registered when its name is first met. -/
def held (o : Options) : List Call → Text → Option Engine
  | [] => fun _ => none
  | call :: earlier =>
    let before := held o earlier
    let met := call.source.meets o fun name => (before name).or (call.registry.find? name)
    fun name => (before name).or (if name ∈ met then call.registry.find? name else none)

/-- A session, and the calls to each compiler since it was made, the last one first. -/
structure Trace where
  session : Session := {}
  calls : Text → List Call := fun _ => []

/-- One more command. A compiler that is made has not been called, whatever had its name before. -/
def Trace.step (w : Setting) (t : Trace) (command : Command) : Trace where
  session := (t.session.step w command).2
  calls id :=
    match command, (t.session.step w command).1 with
    | .makeCompiler made _ _ _, .passes _ => if made = id then [] else t.calls id
    | command, _ =>
      match command.call?, t.session.compilers.lookup id with
      | some (called, source), some c =>
        if called = id then ⟨t.session.registryOf w c, source⟩ :: t.calls id else t.calls id
      | _, _ => t.calls id

def trace (w : Setting) (commands : List Command) : Trace :=
  commands.foldl (Trace.step w) {}

/-! ## What a command changes -/

/-- An answer that leaves registries and compilers as they are. -/
def IsQuiet {α : Type} (answer : α → Session → Reply × Session) : Prop :=
  ∀ a s, (answer a s).2.shelf = s.shelf ∧ (answer a s).2.registries = s.registries ∧
    (answer a s).2.compilers = s.compilers

theorem compile_works (source : Source) : Works source fun o r met =>
    ((MarkupTemplate.generate o r source met).1.map fun program => (⟨program, o.label⟩ : Template),
      (MarkupTemplate.generate o r source met).2) := by
  have works := (generate_works source).bind fun o program => .ok (⟨program, o.label⟩ : Template)
  have same : ∀ (o : Options) (result : Except Error Program),
      (result.map fun program => (⟨program, o.label⟩ : Template)) = result >>= fun program =>
        .ok ⟨program, o.label⟩ := by
    intro o result
    cases result with
    | ok | error => rfl
  simpa only [same] using works

theorem exists_working (w : Setting) {command : Command}
    (calls : command.call? = some (id, source)) :
    ∃ (α : Type) (works : Compiler → Registry → Desk → Except Error α × Compiler)
      (work : Options → Registry → Cache → Except Error α × Cache)
      (answer : α → Session → Reply × Session),
      IgnoresDesk works work ∧ Works source work ∧ IsQuiet answer ∧
      (∀ a s s', (answer a s).1 = (answer a s').1) ∧
        ∀ s : Session, s.step w command = s.working w id source works answer := by
  cases command with
  | transform =>
    cases calls
    exact ⟨_, _, _, _, Compiler.transform_ignoresDesk source, transform_works source,
      fun _ _ => ⟨rfl, rfl, rfl⟩,
      fun _ _ _ => rfl, fun _ => rfl⟩
  | generate =>
    cases calls
    exact ⟨_, _, _, _, Compiler.generate_ignoresDesk source, generate_works source,
      fun _ _ => ⟨rfl, rfl, rfl⟩,
      fun _ _ _ => rfl, fun _ => rfl⟩
  | compile id template source =>
    cases calls
    exact ⟨_, _, _, fun t s => (.template t, { s with templates := put template t s.templates }),
      (Compiler.generate_ignoresDesk source).map fun o program => ⟨program, o.label⟩,
        compile_works source,
      fun _ _ => ⟨rfl, rfl, rfl⟩, fun _ _ _ => rfl, fun _ => rfl⟩
  | _ => nomatch calls

section working

variable {works : Compiler → Registry → Desk → Except Error α × Compiler}
  {work : Options → Registry → Cache → Except Error α × Cache}
    {answer : α → Session → Reply × Session}

theorem working_changes (found : s.compilers.lookup id = some c) (ignores : IgnoresDesk works work)
    (quiet : IsQuiet answer) (source : Source) :
    (s.working w id source works answer).2.shelf = s.shelf ∧
      (s.working w id source works answer).2.registries = s.registries ∧
      ∃ desk, (s.working w id source works answer).2.compilers =
        put id { c with met := (work c.options (s.registryOf w c) c.met).2, desk } s.compilers := by
  obtain ⟨desk, same⟩ := ignores c (s.registryOf w c) (w.left c (s.registryOf w c) source)
  simp only [working, found, same]
  cases (work c.options (s.registryOf w c) c.met).1 with
  | ok a =>
    obtain ⟨shelf, registries, compilers⟩ := quiet a
      { s with
        compilers :=
          put id { c with met := (work c.options (s.registryOf w c) c.met).2, desk } s.compilers }
    exact ⟨shelf, registries, desk, compilers⟩
  | error e => exact ⟨rfl, rfl, desk, rfl⟩

theorem working_reply (found : s.compilers.lookup id = some c) (ignores : IgnoresDesk works work)
    (steady : ∀ a s s', (answer a s).1 = (answer a s').1) (source : Source) :
    (s.working w id source works answer).1 =
      match (work c.options (s.registryOf w c) c.met).1 with
      | .ok a => (answer a {}).1
      | .error e => .error e := by
  obtain ⟨desk, same⟩ := ignores c (s.registryOf w c) (w.left c (s.registryOf w c) source)
  simp only [working, found, same]
  cases (work c.options (s.registryOf w c) c.met).1 with
  | ok a => exact steady a _ _
  | error e => rfl

end working

theorem asking_changes (s : Session) (name : Text) (things : List (Text × α)) (answer : α → Reply) :
    (s.asking name things answer).2 = s := by
  unfold asking
  cases things.lookup name with
  | none | some => rfl

/-! ## Sessions with their calls -/

/-- What holds of every session: calls tell what was met, and no two names share a registry. -/
structure Trace.Sound (t : Trace) : Prop where
  held {id : Text} {c : Compiler} : t.session.compilers.lookup id = some c →
    ∀ name, c.met.lookup name = Session.held c.options (t.calls id) name
  numbered {a : Text} {i : Nat} : t.session.registries.lookup a = some i →
    i < t.session.shelf.length
  apart {a b : Text} {i : Nat} : t.session.registries.lookup a = some i →
    t.session.registries.lookup b = some i → a = b

namespace Trace

variable {t : Trace} {command : Command}

theorem start : ({} : Trace).Sound :=
  ⟨fun found => (nomatch found), fun found => (nomatch found), fun found => nomatch found⟩

section

variable (sound : t.Sound)

include sound

theorem Sound.quiet (calls : (t.step w command).calls = t.calls)
    (same : (t.session.step w command).2.compilers = t.session.compilers)
    (numbered : ∀ {a i}, (t.session.step w command).2.registries.lookup a = some i →
      i < (t.session.step w command).2.shelf.length)
    (apart : ∀ {a b i}, (t.session.step w command).2.registries.lookup a = some i →
      (t.session.step w command).2.registries.lookup b = some i → a = b) :
      (t.step w command).Sound := by
  refine ⟨fun {id c} found => ?_, numbered, apart⟩
  rw [calls]
  exact sound.held ((congrArg (List.lookup id) same).symm.trans found)

theorem Sound.still (calls : (t.step w command).calls = t.calls)
    (same : (t.session.step w command).2 = t.session) : (t.step w command).Sound :=
  sound.quiet calls (by rw [same]) (by rw [same]; exact sound.numbered)
    (by rw [same]; exact sound.apart)

theorem Sound.makeRegistry (id : Text) (origin : Origin) :
    (t.step w (.makeRegistry id origin)).Sound := by
  cases found : t.session.origin? w origin with
  | none => exact sound.still rfl (by simp only [Session.step, found])
  | some r =>
    have stepped : (t.session.step w (.makeRegistry id origin)).2 =
        { t.session with
          shelf := t.session.shelf ++ [r],
          registries := put id t.session.shelf.length t.session.registries } := by
      simp only [Session.step, found]
    refine sound.quiet rfl (by rw [stepped]) ?_ ?_
    · intro a i here
      rw [stepped] at here ⊢
      simp only [lookup_put] at here
      simp only [List.length_append, List.length_singleton]
      split at here
      next => cases here; omega
      next => have := sound.numbered here; omega
    · intro a b i here there
      rw [stepped] at here there
      simp only [lookup_put] at here there
      split at here
      next same =>
        split at there
        next same' => exact same.trans same'.symm
        next =>
          cases here
          exact absurd (sound.numbered there) (Nat.lt_irrefl _)
      next =>
        split at there
        next =>
          cases there
          exact absurd (sound.numbered here) (Nat.lt_irrefl _)
        next => exact sound.apart here there

theorem Sound.register (registry name : Text) (engine : Engine) :
    (t.step w (.register registry name engine)).Sound := by
  cases found : t.session.registries.lookup registry with
  | none => exact sound.still rfl (by simp only [Session.step, found])
  | some i =>
    have stepped : (t.session.step w (.register registry name engine)).2 =
        { t.session with shelf := t.session.shelf.set i ((t.session.registryAt i).register name
          engine) } := by
      simp only [Session.step, found]
    refine sound.quiet rfl (by rw [stepped]) ?_ ?_
    · rw [stepped]
      intro a j here
      rw [List.length_set]
      exact sound.numbered here
    · rw [stepped]
      exact sound.apart

theorem Sound.makeCompiler (id : Text) (home? base? : Option Text) (given : Options.Given) :
    (t.step w (.makeCompiler id home? base? given)).Sound := by
  have refused : ∀ reply, (∀ passes, reply ≠ .passes passes) →
      t.session.step w (.makeCompiler id home? base? given) = (reply, t.session) →
      (t.step w (.makeCompiler id home? base? given)).Sound := by
    intro reply other stepped
    refine sound.still ?_ (by rw [stepped])
    funext id'
    simp only [Trace.step, stepped]
    cases reply with
    | passes passes => exact absurd rfl (other passes)
    | _ => rfl
  cases home : resolve home? t.session.registries with
  | none => exact refused .missing nofun (by simp only [Session.step, home])
  | some number? =>
    cases base : resolve base? t.session.compilers with
    | none => exact refused .missing nofun (by simp only [Session.step, home, base])
    | some from? =>
      cases built : newOptions (from?.map (·.options)) given with
      | error e => exact refused (.error e) nofun (by simp only [Session.step, home, base, built])
      | ok options =>
        have stepped : t.session.step w (.makeCompiler id home? base? given) =
            (.passes (Pass.all options),
              { t.session with
                compilers := put id { options, home? := number? } t.session.compilers }) := by
          simp only [Session.step, home, base, built]
        refine ⟨fun {id' c} found => ?_, fun {a i} => ?_, fun {a b i} => ?_⟩
        · simp only [Trace.step, stepped, lookup_put] at found ⊢
          split at found
          next same =>
            cases found
            rw [if_pos same.symm]
            exact fun _ => rfl
          next other =>
            rw [if_neg fun same => other same.symm]
            exact sound.held found
        · simp only [Trace.step, stepped]
          exact sound.numbered
        · simp only [Trace.step, stepped]
          exact sound.apart

end

theorem overlay_of_held {c : Compiler} {calls : List Call} (r : Registry)
    (held : ∀ name, c.met.lookup name = Session.held c.options calls name) :
    overlay c.met r = fun name => (Session.held c.options calls name).or (r.find? name) := by
  funext name
  rw [overlay, held]

variable {source : Source}

theorem calls_of_call {id : Text} (calls : command.call? = some (id, source)) (id' : Text) :
    (t.step w command).calls id' =
      match t.session.compilers.lookup id' with
      | some c =>
        if id = id' then ⟨t.session.registryOf w c, source⟩ :: t.calls id' else t.calls id'
      | none => t.calls id' := by
  cases command with
  | transform | generate | compile =>
    cases calls
    simp only [Trace.step, Command.call?]
    cases t.session.compilers.lookup id' with
    | none | some => rfl
  | _ => nomatch calls

theorem Sound.call (sound : t.Sound) {id : Text} (calls : command.call? = some (id, source)) :
    (t.step w command).Sound := by
  obtain ⟨α, _, work, answer, ignores, works, quiet, _, eq⟩ := exists_working w calls
  cases found : t.session.compilers.lookup id with
  | none =>
    refine sound.still ?_ (by rw [eq, working, found])
    funext id'
    rw [calls_of_call calls]
    split
    next c here => exact if_neg fun same => by simp [← same, found] at here
    next => rfl
  | some c =>
    obtain ⟨shelf, registries, desk, compilers⟩ := working_changes found ignores quiet source
    rw [← eq] at shelf registries compilers
    refine ⟨fun {id' c'} here => ?_, fun {a i} => ?_, fun {a b i} => ?_⟩
    · have here : (t.session.step w command).2.compilers.lookup id' = some c' := here
      rw [compilers, lookup_put] at here
      rw [calls_of_call calls]
      split at here
      next same =>
        cases here
        subst same
        -- What names stand for in the call is the same whether one asks the compiler or the calls
        -- before.
        have stands := overlay_of_held (t.session.registryOf w c) (sound.held found)
        intro name
        simp only [found, if_pos]
        rw [works.extend, stands, sound.held found]
        rfl
      next other =>
        have apart : id ≠ id' := fun same => other same.symm
        simp only [here, if_neg apart]
        exact sound.held here
    · simp only [Trace.step, shelf, registries]
      exact sound.numbered
    · simp only [Trace.step, registries]
      exact sound.apart

theorem Sound.step (sound : t.Sound) (command : Command) : (t.step w command).Sound := by
  cases command with
  | makeRegistry id origin => exact sound.makeRegistry id origin
  | register registry name engine => exact sound.register registry name engine
  | contains | create | enabled | options | render => exact sound.still rfl (asking_changes ..)
  | makeCompiler id home? base? given => exact sound.makeCompiler id home? base? given
  | transform | generate | compile => exact sound.call rfl

end Trace

theorem sound_trace (w : Setting) (commands : List Command) : (trace w commands).Sound := by
  have run : ∀ (commands : List Command) (t : Trace), t.Sound →
      (commands.foldl (Trace.step w) t).Sound := by
    intro commands
    induction commands with
    | nil => exact fun _ sound => sound
    | cons command commands ih => exact fun t sound => ih (t.step w command) (sound.step command)
  exact run commands {} Trace.start

/-! ## Replies -/

/-- A session with one registry and a new compiler on it. -/
def alone (id : Text) (o : Options) (r : Registry) : Session where
  shelf := [r]
  compilers := [(id, { options := o, home? := some 0 })]

/-- What a name stands for to a compiler: the engine registered when the compiler first met the
name, or else the one that is registered now. -/
def Trace.stands (w : Setting) (t : Trace) (id : Text) (c : Compiler) (name : Text) :
    Option Engine :=
  (held c.options (t.calls id) name).or ((t.session.registryOf w c).find? name)

/-- The engine of a name in a registry that is given by name. -/
def resolves (s : Session) (registry name : Text) : Option Engine :=
  (s.registries.lookup registry).bind fun i => (s.registryAt i).find? name

theorem getElem?_run (t : Trace) (before : List Command) (command : Command)
    (after : List Command) : (run w t.session (before ++ command :: after))[before.length]? =
      some ((before.foldl (Trace.step w) t).session.step w command).1 := by
  induction before generalizing t with
  | nil => rfl
  | cons first before ih => exact ih (t.step w first)

/-- A compiler answers like a new one on a registry where each name stands for the same engine. -/
theorem Trace.Sound.reply {t : Trace} (sound : t.Sound)
    (found : t.session.compilers.lookup id = some c)
    {r : Registry} (same : ∀ name, r.find? name = t.stands w id c name) {command : Command}
    (calls : command.call? = some (id, source)) :
    (t.session.step w command).1 = ((alone id c.options r).step w command).1 := by
  obtain ⟨α, _, work, answer, ignores, works, _, steady, eq⟩ := exists_working w calls
  have new : (alone id c.options r).compilers.lookup id =
      some { options := c.options, home? := some 0 } := by
    simp [alone]
  have overlaid : overlay c.met (t.session.registryOf w c) = overlay [] r := by
    rw [Trace.overlay_of_held _ (sound.held found)]
    exact funext fun name => (same name).symm
  rw [eq, eq, working_reply found ignores steady, working_reply new ignores steady,
    works.congr overlaid]
  rfl

theorem registryAt_register {a : Text} {i : Nat} (found : s.registries.lookup a = some i)
    (inside : i < s.shelf.length) (name : Text) (engine : Engine) (j : Nat) :
    (s.step w (.register a name engine)).2.registryAt j =
      if j = i then (s.registryAt i).register name engine else s.registryAt j := by
  simp only [step, found, registryAt, List.getElem?_set]
  by_cases same : j = i
  · simp [same, inside]
  · rw [if_neg (Ne.symm same), if_neg same]

/-- In every session a compiler answers each call like a new compiler with the same options, on a
registry that gives each name what it stands for to the compiler, and there is such a registry.
Registering an engine changes what its name stands for in that registry, and nothing in any other.
-/
theorem session_isolated (w : Setting) (before : List Command) :
    (∀ id c, (trace w before).session.compilers.lookup id = some c →
      (∃ r : Registry, ∀ name, r.find? name = (trace w before).stands w id c name) ∧
      ∀ r : Registry, (∀ name, r.find? name = (trace w before).stands w id c name) →
        ∀ command source after, command.call? = some (id, source) →
          (run w {} (before ++ command :: after))[before.length]? =
            some ((alone id c.options r).step w command).1) ∧
    ∀ s, s = (trace w before).session → ∀ a name engine s',
    s' = (s.step w (.register a name engine)).2 →
      (∀ j, s.registries.lookup a ≠ some j → s'.registryAt j = s.registryAt j) ∧
      (∀ b key, b ≠ a ∨ key ≠ name → s'.resolves b key = s.resolves b key) ∧
      ((s.registries.lookup a).isSome → s'.resolves a name = some engine) := by
  have sound := sound_trace w before
  constructor
  · intro id c found
    constructor
    · refine ⟨c.met ++ (trace w before).session.registryOf w c, fun name => ?_⟩
      rw [Registry.find?, List.lookup_append, sound.held found]
      rfl
    · intro r same command source after calls
      rw [← sound.reply found same calls]
      exact getElem?_run {} before command after
  · rintro s rfl a name engine s' rfl
    cases found : (trace w before).session.registries.lookup a with
    | none =>
      have still : ((trace w before).session.step w (.register a name engine)).2 =
          (trace w before).session := by
        simp only [step, found]
      rw [still]
      exact ⟨fun _ _ => rfl, fun _ _ _ => rfl, nofun⟩
    | some i =>
      have inside := sound.numbered found
      have registered := registryAt_register (w := w) found inside name engine
      have names : ((trace w before).session.step w (.register a name engine)).2.registries =
          (trace w before).session.registries := by
        simp only [step, found]
      refine ⟨fun j other => ?_, fun b key other => ?_, fun _ => ?_⟩
      · rw [registered, if_neg fun same => other (by rw [same])]
      · rw [resolves, resolves, names]
        cases there : (trace w before).session.registries.lookup b with
        | none => rfl
        | some j =>
          simp only [Option.bind_some, registered]
          by_cases same : j = i
          · subst same
            rw [if_pos rfl, find?_register, if_neg]
            exact other.resolve_left (fun apart => apart (sound.apart there found))
          · rw [if_neg same]
      · rw [resolves, names, found, Option.bind_some, registered, if_pos rfl, find?_register,
          if_pos rfl]

/-- A pass that fails leaves notes behind. -/
def untidy : Setting where
  markdown := Embedded.verbatim
  host := .standard fun _ _ => .ok []
  left _ _ _ := { made := fun _ => 3, line := 7 }

/-- An engine of some kind, to which Markdown is plain text. -/
def ownEngine (kind : Embedded.Kind) : Engine where
  kind
  markdown := Embedded.verbatim

/-- A template with two engines in it. -/
def twoEngines : Command :=
  .transform "c" (.text ":plain\n  a\n:later\n  b")

/-- A compiler meets an engine in a call that fails at a name without one. Then its registry is
copied, and both names are registered in it. -/
def registeredLater : List Command :=
  [.makeRegistry "r" .builtin, .makeCompiler "c" (some "r") none [], twoEngines,
    .makeRegistry "copy" (.copy "r"), .register "r" "plain" (ownEngine .cdata),
    .register "r" "later" (ownEngine .preserve)]

/-- The compiler keeps the engine it has met and takes the other one, and the copy has neither. -/
theorem session_isolated_registeredLater :
    ∃ t, t = trace untidy registeredLater ∧ ∃ c, t.session.compilers.lookup "c".toList = some c ∧
      c.desk.line = 7 ∧ (t.stands untidy "c" c "plain").map (·.kind) = some .plain ∧
      (t.stands untidy "c" c "later").map (·.kind) = some .preserve ∧
      (∀ r : Registry, (∀ name, r.find? name = t.stands untidy "c" c name) →
        (run untidy {} (registeredLater ++ [twoEngines]))[6]? =
          some ((alone "c" c.options r).step untidy twoEngines).1) ∧
      ((t.session.step untidy (.register "r" "plain" (ownEngine .host))).2.resolves
        "copy" "plain").map (·.kind) = some .plain := by
  refine ⟨_, rfl, ?_⟩
  have stands : ((trace untidy registeredLater).session.compilers.lookup "c".toList).map (fun c =>
      (c.desk.line, ((trace untidy registeredLater).stands untidy "c" c "plain").map (·.kind),
        ((trace untidy registeredLater).stands untidy "c" c "later").map (·.kind))) =
      some (7, some .plain, some .preserve) := by decide +kernel
  have copied : ((trace untidy registeredLater).session.resolves "copy" "plain").map (·.kind) =
      some .plain := by decide +kernel
  obtain ⟨replies, registered⟩ := session_isolated untidy registeredLater
  cases found : (trace untidy registeredLater).session.compilers.lookup "c".toList with
  | none =>
    rw [found] at stands
    nomatch stands
  | some c =>
    rw [found] at stands
    obtain ⟨line, engines⟩ := Prod.mk.inj (Option.some.inj stands)
    obtain ⟨plain, later⟩ := Prod.mk.inj engines
    refine ⟨c, rfl, line, plain, later, fun r same => (replies _ c found).2 r same _ _ [] rfl, ?_⟩
    rw [(registered _ rfl "r" "plain" (ownEngine .host) _ rfl).2.1 _ _ (.inl (by decide)), copied]

end MarkupTemplate.Session
