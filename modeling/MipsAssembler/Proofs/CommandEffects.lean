/-
What a run of the command line touches.

A run reads one file, makes a plan and carries it out, so what it touches follows from two things that
know nothing of each other:

* `Asks` — the files and texts that a plan asks for, in order, and how it ends; there is one rule for each
  way to make a plan, and `asks_plan_of_encode` and its companions say what the plan of a run asks for;
* `Session.follow_of_asks` — to carry out a plan is to create the files that it asks for, up to the first
  one that cannot be created, and then to print its texts;
* `run_touches_what_is_asked` — what a run changes and prints, whatever its arguments and its input.

Design notes: a run takes the stages of an assembly one by one, because it writes the expanded program
between two of them.  `value_assemble_of_layOut` says that this makes no difference.
-/
import Mathlib
import MipsAssembler.Proofs.CreatedFiles
import MipsAssembler.Proofs.OutputTexts
import MipsAssembler.Proofs.ProgramForm

namespace MipsAssembler.CommandLine

/-! ### Plans -/

/-- Whether an action is seen outside the log. -/
def Action.isSeen : Action → Bool
  | .log _ => false
  | _ => true

/-- The actions that create files and then print texts. -/
def actionsOf (files : List (String × String)) (texts : List String) : List Action :=
  files.map (fun (path, text) => .write path text) ++ texts.map .print

section Plans

variable {α β : Type}

/-- Whether `p` asks for these files and then these texts, and has this outcome. -/
structure Asks (p : Plan α) (files : List (String × String)) (texts : List String)
    (outcome : Except Trouble α) : Prop where
  seen : p.run.trace.toList.filter Action.isSeen = actionsOf files texts
  outcome : p.run.value = outcome

variable {p : Plan α} {f : α → Plan β} {files files' : List (String × String)}
  {texts : List String} {a : α} {e : Trouble} {outcome : Except Trouble β}

theorem trace_run_bind_of_ok (h : p.run.value = .ok a) :
    (p >>= f).run.trace = p.run.trace ++ (f a).run.trace := by
  show p.run.trace ++ (ExceptT.bindCont f p.run.value).trace = _
  rw [h]
  rfl

theorem trace_run_bind_of_error (h : p.run.value = .error e) :
    (p >>= f).run.trace = p.run.trace := by
  show p.run.trace ++ (ExceptT.bindCont f p.run.value).trace = _
  rw [h]
  exact Array.append_empty

/-- Files come before texts, so the first plan must not ask for a text. -/
theorem Asks.bind (h : Asks p files [] (.ok a)) (h' : Asks (f a) files' texts outcome) :
    Asks (p >>= f) (files ++ files') texts outcome := by
  refine ⟨?_, ?_⟩
  · rw [trace_run_bind_of_ok (f := f) h.outcome, Array.toList_append, List.filter_append, h.seen,
      h'.seen]
    simp [actionsOf]
  · rw [value_run_bind, h.outcome]
    exact h'.outcome

/-- A plan that ends in trouble asks for nothing more. -/
theorem Asks.bind_error (h : Asks p files texts (.error e)) (f : α → Plan β) :
    Asks (p >>= f) files texts (.error e) := by
  refine ⟨?_, ?_⟩
  · rw [trace_run_bind_of_error (f := f) h.outcome, h.seen]
  · rw [value_run_bind, h.outcome]
    rfl

theorem asks_write (path text : String) : Asks (act (.write path text)) [(path, text)] [] (.ok ()) :=
  ⟨rfl, rfl⟩

theorem asks_print (text : String) : Asks (act (.print text)) [] [text] (.ok ()) := ⟨rfl, rfl⟩

theorem asks_log (event : Event) : Asks (act (.log event)) [] [] (.ok ()) := ⟨rfl, rfl⟩

theorem asks_pure (a : α) : Asks (pure a) [] [] (.ok a) := ⟨rfl, rfl⟩

theorem asks_mk (x : Except Trouble α) : Asks (ExceptT.mk (pure x)) [] [] x := ⟨rfl, rfl⟩

/-- A stage only writes to the log. -/
theorem asks_stage (x : ExceptT Rejection Logged α) :
    Asks (stage x) [] [] (x.run.value.mapError Trouble.rejected) := by
  have htrace : (stage x).run.trace.toList = x.run.trace.toList.map Action.log := Array.toList_map
  refine ⟨?_, rfl⟩
  rw [htrace]
  show _ = []
  rw [List.filter_eq_nil_iff]
  intro action haction
  obtain ⟨event, -, rfl⟩ := List.mem_map.mp haction
  exact nofun

end Plans

/-! ### The plan of a run -/

namespace Arguments

/-- Whether the arguments ask for these settings. -/
def Sets (args : Arguments) (options : Options) : Prop :=
  options.base = args.baseAddress ∧ options.keepGoing = args.keepGoing

theorem options_eq_ok {args : Arguments} {options : Options} (h : args.Sets options) :
    args.options = .ok options := by
  obtain ⟨base, keepGoing, haligned⟩ := options
  obtain ⟨rfl, rfl⟩ := h
  rw [Arguments.options, Options.withBase, dif_pos haligned]
  rfl

theorem options_of_misaligned {args : Arguments} (h : args.baseAddress.toNat % 4 ≠ 0) :
    args.options = .error (.misalignedAddress args.baseAddress.toNat) := by
  rw [Arguments.options, Options.withBase, dif_neg h]
  rfl

/-- The file with the expanded program, if it is asked for. -/
def expandedFiles (args : Arguments) (layout : Layout) : List (String × String) :=
  args.expanded.toList.map fun path => (path, Text.ofLines layout.expandedLines)

/-- The files that are asked for with an output: the words, then the tables. -/
def outputFiles (args : Arguments) (assembly : Assembly) : List (String × String) :=
  match args.output with
  | none => []
  | some path =>
    (path, Text.ofLines (assembly.words.toList.map Word.digits)) ::
      ((if args.symbols then [(path ++ ".sym", Text.ofLines assembly.labels.entryLines)] else []) ++
        if args.relocations then [(path ++ ".rel", Text.ofLines assembly.relocations.entryLines)]
        else [])

/-- What is printed without an output: the listing. -/
def printedTexts (args : Arguments) (assembly : Assembly) : List String :=
  if args.output = none then [Text.ofLines assembly.listingLines] else []

/-- Every path that a run may write to. -/
def outputPaths (args : Arguments) : List String :=
  args.expanded.toList ++ args.output.toList.flatMap fun path => [path, path ++ ".sym", path ++ ".rel"]

theorem fst_mem_outputPaths_of_expanded {args : Arguments} {layout : Layout} {f : String × String}
    (h : f ∈ args.expandedFiles layout) : f.1 ∈ args.outputPaths := by
  obtain ⟨path, hpath, rfl⟩ := List.mem_map.mp h
  exact List.mem_append_left _ hpath

theorem fst_mem_outputPaths_of_output {args : Arguments} {assembly : Assembly}
    {f : String × String} (h : f ∈ args.outputFiles assembly) : f.1 ∈ args.outputPaths := by
  rw [outputFiles] at h
  refine List.mem_append_right _ ?_
  split at h
  · cases h
  case h_2 path hpath =>
    rw [hpath]
    simp only [List.mem_cons, List.mem_append, List.mem_ite_nil_right, List.not_mem_nil,
      or_false] at h
    rcases h with rfl | ⟨-, rfl⟩ | ⟨-, rfl⟩ <;> simp

end Arguments

section PlanOfRun

variable {args : Arguments} {text : String} {options : Options} {layout : Layout} {r : Rejection}
  {assembly : Assembly}

theorem asks_writeExpanded (args : Arguments) (layout : Layout) :
    Asks (writeExpanded args layout) (args.expandedFiles layout) [] (.ok ()) := by
  rw [writeExpanded, Arguments.expandedFiles, ← Layout.render_eq]
  cases args.expanded with
  | none => exact asks_pure ()
  | some path => exact (asks_write path _).bind (asks_log _)

theorem withExtension_sym (path : String) : withExtension path "sym" = path ++ ".sym" :=
  String.append_assoc

theorem withExtension_rel (path : String) : withExtension path "rel" = path ++ ".rel" :=
  String.append_assoc

theorem asks_deliver (args : Arguments) (assembly : Assembly) :
    Asks (deliver args assembly) (args.outputFiles assembly) (args.printedTexts assembly)
      (.ok ()) := by
  rw [deliver, Arguments.outputFiles, Arguments.printedTexts, ← Assembly.render_eq,
    ← Word.renderLines_eq, ← SymbolTable.render_eq, ← SymbolTable.render_eq]
  cases args.output with
  | none => exact asks_print _
  | some path =>
    -- Whether there are relocations to write is settled first, as it does not depend on the labels.
    have hrelocations : Asks (if args.relocations then
          act (.write (withExtension path "rel") assembly.relocations.render) else pure ())
        (if args.relocations then [(path ++ ".rel", assembly.relocations.render)] else [])
        [] (.ok ()) := by
      rw [withExtension_rel]
      cases args.relocations with
      | false => exact asks_pure ()
      | true => exact asks_write _ _
    refine (asks_write path _).bind ?_
    refine (asks_log _).bind ?_
    cases args.symbols with
    | false => exact hrelocations
    | true =>
      have hsymbols := asks_write (path ++ ".sym") assembly.labels.render
      rw [← withExtension_sym] at hsymbols ⊢
      exact hsymbols.bind hrelocations

theorem asks_plan_of_unreadable (args : Arguments) (reason : String) :
    Asks (plan args (.error reason)) [] [] (.error (.unreadable args.input reason)) :=
  (asks_mk _).bind_error _

theorem asks_plan_of_misaligned (h : args.baseAddress.toNat % 4 ≠ 0) (text : String) :
    Asks (plan args (.ok text)) [] []
      (.error (.badBase (.misalignedAddress args.baseAddress.toNat))) := by
  have hoptions := asks_mk (args.options.mapError Trouble.badBase)
  rw [Arguments.options_of_misaligned h] at hoptions
  refine (asks_mk (.ok text)).bind ?_
  rw [Arguments.options_of_misaligned h]
  exact hoptions.bind_error _

/-- The plan behind the input and the settings. -/
theorem Asks.plan_of_sets {files : List (String × String)} {texts : List String}
    {outcome : Except Trouble Unit} (hsets : args.Sets options)
    (h : Asks (do
      let layout ← stage (Program.layOut text options)
      writeExpanded args layout
      let assembly ← stage (Program.encode layout options)
      deliver args assembly) files texts outcome) :
    Asks (plan args (.ok text)) files texts outcome := by
  have hoptions := asks_mk (args.options.mapError Trouble.badBase)
  rw [Arguments.options_eq_ok hsets] at hoptions
  refine (asks_mk (.ok text)).bind ?_
  rw [Arguments.options_eq_ok hsets]
  exact hoptions.bind h

theorem asks_plan_of_rejected_layout (hsets : args.Sets options)
    (h : (Program.layOut text options).run.value = .error r) :
    Asks (plan args (.ok text)) [] [] (.error (.rejected r)) := by
  have hstage := asks_stage (Program.layOut text options)
  rw [h] at hstage
  exact (hstage.bind_error _).plan_of_sets hsets

/-- The plan behind the layout: the expanded program, and then the other stage. -/
theorem Asks.plan_of_layOut {files : List (String × String)} {texts : List String}
    {outcome : Except Trouble Unit} (hsets : args.Sets options)
    (hlayout : (Program.layOut text options).run.value = .ok layout)
    (h : Asks (stage (Program.encode layout options) >>= deliver args) files texts outcome) :
    Asks (plan args (.ok text)) (args.expandedFiles layout ++ files) texts outcome := by
  have hstage := asks_stage (Program.layOut text options)
  rw [hlayout] at hstage
  have hrest := (asks_writeExpanded args layout).bind
    (f := fun _ => stage (Program.encode layout options) >>= deliver args) h
  exact (hstage.bind hrest).plan_of_sets hsets

theorem asks_plan_of_rejected_encoding (hsets : args.Sets options)
    (hlayout : (Program.layOut text options).run.value = .ok layout)
    (h : (Program.encode layout options).run.value = .error r) :
    Asks (plan args (.ok text)) (args.expandedFiles layout) [] (.error (.rejected r)) := by
  have hstage := asks_stage (Program.encode layout options)
  rw [h] at hstage
  rw [← List.append_nil (args.expandedFiles layout)]
  exact (hstage.bind_error _).plan_of_layOut hsets hlayout

theorem asks_plan_of_encode (hsets : args.Sets options)
    (hlayout : (Program.layOut text options).run.value = .ok layout)
    (h : (Program.encode layout options).run.value = .ok assembly) :
    Asks (plan args (.ok text)) (args.expandedFiles layout ++ args.outputFiles assembly)
      (args.printedTexts assembly) (.ok ()) := by
  have hstage := asks_stage (Program.encode layout options)
  rw [h] at hstage
  exact (hstage.bind (asks_deliver args assembly)).plan_of_layOut hsets hlayout

end PlanOfRun

/-- The stages of a run are those of an assembly: behind the layout both do the same. -/
theorem value_assemble_of_layOut {text : String} {options : Options} {layout : Layout}
    (h : (Program.layOut text options).run.value = .ok layout) :
    (Program.assemble text options).run.value = (Program.encode layout options).run.value := by
  simp only [Program.assemble, value_run_bind, h, value_run_log, value_run_pure]
  show ((Program.encode layout options).run.value >>= fun assembly => .ok assembly) = _
  exact bind_pure _

/-! ### Sessions -/

namespace Session

variable {s s' : Session} {actions : List Action} {p : Plan Unit}
  {files : List (String × String)} {texts : List String} {outcome : Except Trouble Unit}

/-- What is seen of a session outside the log. -/
def seen (s : Session) : Directory × String := (s.directory, s.printed)

theorem perform_write_of_ok {path text : String} {d : Directory}
    (h : s.directory.create path text = .ok d) :
    s.perform (.write path text) = .ok { s with directory := d } := by
  rw [perform, h]
  rfl

theorem perform_write_of_error {path text : String} {obstacle : Obstacle}
    (h : s.directory.create path text = .error obstacle) :
    s.perform (.write path text) = .error obstacle := by
  rw [perform, h]
  rfl

theorem performAll_cons_of_ok {action : Action} (h : s.perform action = .ok s')
    (actions : List Action) : s.performAll (action :: actions) = s'.performAll actions := by
  rw [performAll, h]

theorem performAll_cons_of_error {action : Action} {obstacle : Obstacle}
    (h : s.perform action = .error obstacle) (actions : List Action) :
    s.performAll (action :: actions) = (s, some obstacle) := by
  rw [performAll, h]

/-- The log has no part in what is seen. -/
theorem seen_performAll_filter (actions : List Action) :
    ∀ {s s' : Session}, s.seen = s'.seen →
      (s.performAll actions).1.seen = (s'.performAll (actions.filter Action.isSeen)).1.seen ∧
        (s.performAll actions).2 = (s'.performAll (actions.filter Action.isSeen)).2 := by
  induction actions with
  | nil =>
    intro s s' h
    exact ⟨h, rfl⟩
  | cons action actions ih =>
    intro s s' h
    obtain ⟨hdirectory, hprinted⟩ := Prod.mk.inj h
    cases action with
    -- An entry in the log is left out on the other side.
    | log event => exact ih (s := { s with log := s.log.push event }) h
    | print text =>
      have hseen : seen { s with printed := s.printed ++ text } =
          seen { s' with printed := s'.printed ++ text } := by
        rw [seen, seen, hdirectory, hprinted]
      exact ih hseen
    | write path text =>
      rw [List.filter_cons_of_pos rfl]
      cases hcreate : s.directory.create path text with
      | error obstacle =>
        -- Both sessions see the same directory, so the same is in the way of both.
        have hcreate' : s'.directory.create path text = .error obstacle := hdirectory ▸ hcreate
        rw [performAll_cons_of_error (perform_write_of_error hcreate),
          performAll_cons_of_error (perform_write_of_error hcreate')]
        exact ⟨h, rfl⟩
      | ok d =>
        have hcreate' : s'.directory.create path text = .ok d := hdirectory ▸ hcreate
        rw [performAll_cons_of_ok (perform_write_of_ok hcreate),
          performAll_cons_of_ok (perform_write_of_ok hcreate')]
        refine ih ?_
        rw [seen, seen, hprinted]

theorem performAll_print (s : Session) (texts : List String) :
    s.performAll (texts.map .print) =
      ({ s with printed := s.printed ++ String.join texts }, none) := by
  induction texts generalizing s with
  | nil => simp [performAll]
  | cons text texts ih =>
    rw [List.map_cons, performAll_cons_of_ok rfl, ih, String.join_cons, String.append_assoc]

/-- Files are created up to the first that cannot be, and nothing is printed before all of them are. -/
theorem performAll_actionsOf (s : Session) (files : List (String × String)) (texts : List String) :
    s.performAll (actionsOf files texts) =
      ({ s with
          directory := (s.directory.createUntil files).1
          printed := if (s.directory.createUntil files).2 = none then s.printed ++ String.join texts
            else s.printed },
        (s.directory.createUntil files).2) := by
  induction files generalizing s with
  | nil =>
    rw [actionsOf, List.map_nil, List.nil_append, performAll_print]
    rfl
  | cons f files ih =>
    obtain ⟨path, text⟩ := f
    rw [actionsOf, List.map_cons, List.cons_append]
    cases hcreate : s.directory.create path text with
    | error obstacle =>
      rw [performAll_cons_of_error (perform_write_of_error hcreate),
        Directory.createUntil_cons_of_error hcreate]
      rfl
    | ok d =>
      rw [performAll_cons_of_ok (perform_write_of_ok hcreate),
        Directory.createUntil_cons_of_ok hcreate]
      exact ih { s with directory := d }

theorem fst_follow (s : Session) (p : Plan Unit) :
    (s.follow p).1 = (s.performAll p.run.trace.toList).1 := by
  rw [follow]
  split <;> simp [*]

theorem snd_follow (s : Session) (p : Plan Unit) :
    (s.follow p).2 = match (s.performAll p.run.trace.toList).2 with
      | some obstacle => .error (.unwritable obstacle.message)
      | none => p.run.value := by
  rw [follow]
  split <;> simp [*]

/-- To carry out a plan is to create its files and then to print its texts, until something is in the
way. -/
theorem follow_of_asks (h : Asks p files texts outcome) (s : Session) :
    (s.follow p).1.directory = (s.directory.createUntil files).1 ∧
      (s.follow p).1.printed = (if (s.directory.createUntil files).2 = none
        then s.printed ++ String.join texts else s.printed) ∧
      (s.follow p).2 = match (s.directory.createUntil files).2 with
        | some obstacle => .error (.unwritable obstacle.message)
        | none => outcome := by
  obtain ⟨hseen, hobstacle⟩ := seen_performAll_filter p.run.trace.toList (Eq.refl s.seen)
  rw [h.seen, performAll_actionsOf] at hseen hobstacle
  obtain ⟨hdirectory, hprinted⟩ := Prod.mk.inj hseen
  rw [snd_follow, hobstacle, fst_follow, h.outcome]
  exact ⟨hdirectory, hprinted, rfl⟩

end Session

/-! ### Runs -/

section Runs

variable (args : Arguments) (d : Directory)

theorem run_eq_follow {text : String} (h : d.read args.input = .ok text) :
    run args d = { directory := d : Session }.follow (plan args (.ok text)) := by
  rw [run, h]
  rfl

theorem run_eq_follow_of_unreadable {obstacle : Obstacle}
    (h : d.read args.input = .error obstacle) :
    run args d = { directory := d : Session }.follow (plan args (.error obstacle.message)) := by
  rw [run, h]
  rfl

/-- A run that asks for nothing before it ends in trouble leaves nothing behind. -/
theorem untouched_of_asks {p : Plan Unit} {e : Trouble} (h : Asks p [] [] (.error e)) :
    ({ directory := d : Session }.follow p).1.directory = d ∧
      ({ directory := d : Session }.follow p).1.printed = "" ∧
        ({ directory := d : Session }.follow p).2 ≠ .ok () := by
  obtain ⟨hdirectory, hprinted, houtcome⟩ := Session.follow_of_asks h { directory := d }
  rw [hdirectory, hprinted, houtcome]
  exact ⟨rfl, rfl, nofun⟩

theorem untouched_of_early_trouble
    (h : (∃ obstacle, d.read args.input = .error obstacle) ∨ args.baseAddress.toNat % 4 ≠ 0 ∨
      ∃ text options r, d.read args.input = .ok text ∧ args.Sets options ∧
        (Program.layOut text options).run.value = .error r) :
    (run args d).1.directory = d ∧ (run args d).1.printed = "" ∧ (run args d).2 ≠ .ok () := by
  cases hread : d.read args.input with
  | error obstacle =>
    rw [run_eq_follow_of_unreadable args d hread]
    exact untouched_of_asks d (asks_plan_of_unreadable args _)
  | ok text =>
    rw [run_eq_follow args d hread]
    -- The input was read, which leaves the base and the layout.
    rcases h with ⟨obstacle, hobstacle⟩ | hbase | ⟨text', options, r, htext', hsets, hlayout⟩
    · rw [hread] at hobstacle
      cases hobstacle
    · exact untouched_of_asks d (asks_plan_of_misaligned hbase text)
    · obtain rfl := Except.ok.inj (hread.symm.trans htext')
      exact untouched_of_asks d (asks_plan_of_rejected_layout hsets hlayout)

variable {text : String} {options : Options} {layout : Layout}

theorem run_of_rejected_encoding {r : Rejection} (hread : d.read args.input = .ok text)
    (hsets : args.Sets options) (hlayout : (Program.layOut text options).run.value = .ok layout)
    (h : (Program.assemble text options).run.value = .error r) :
    let made := d.createUntil (args.expandedFiles layout)
    (run args d).1.directory = made.1 ∧ (run args d).1.printed = "" ∧ (run args d).2 ≠ .ok () ∧
      (made.2 = none → d.Updated (args.expandedFiles layout) made.1) ∧
      (made.2 ≠ none → made.1 = d) := by
  intro made
  rw [value_assemble_of_layOut hlayout] at h
  obtain ⟨hdirectory, hprinted, houtcome⟩ := Session.follow_of_asks
    (asks_plan_of_rejected_encoding hsets hlayout h) { directory := d }
  -- One file at most is asked for, so there is no state between all and nothing.
  have hlength : (args.expandedFiles layout).length ≤ 1 := by
    rw [Arguments.expandedFiles]
    cases args.expanded <;> simp
  rw [run_eq_follow args d hread]
  refine ⟨hdirectory, ?_, ?_, Directory.updated_of_createUntil,
    Directory.fst_createUntil_of_ne_none hlength⟩
  · rw [hprinted]
    split <;> rfl
  · rw [houtcome]
    split <;> exact nofun

theorem run_of_assemble {assembly : Assembly} (hread : d.read args.input = .ok text)
    (hsets : args.Sets options) (hlayout : (Program.layOut text options).run.value = .ok layout)
    (h : (Program.assemble text options).run.value = .ok assembly) :
    let files := args.expandedFiles layout ++ args.outputFiles assembly
    let made := d.createUntil files
    (run args d).1.directory = made.1 ∧
      (made.2 = none → (run args d).2 = .ok () ∧ d.Updated files made.1 ∧
        (run args d).1.printed =
          if args.output = none then Text.ofLines assembly.listingLines else "") ∧
      ∀ obstacle, made.2 = some obstacle →
        (run args d).2 = .error (.unwritable obstacle.message) ∧ (run args d).1.printed = "" ∧
          ∃ created, created <+: files ∧ d.Updated created made.1 := by
  intro files made
  -- The assembly of the text is that of the second stage of the run.
  rw [value_assemble_of_layOut hlayout] at h
  obtain ⟨hdirectory, hprinted, houtcome⟩ := Session.follow_of_asks
    (asks_plan_of_encode hsets hlayout h) { directory := d }
  rw [run_eq_follow args d hread]
  refine ⟨hdirectory, fun hnone => ?_, fun obstacle hobstacle => ?_⟩
  · have hmade : (d.createUntil files).2 = none := hnone
    refine ⟨?_, Directory.updated_of_createUntil hnone, ?_⟩
    · rw [houtcome, hmade]
    · rw [hprinted, if_pos hmade, Arguments.printedTexts]
      split
      · simp
      · rfl
  · have hmade : (d.createUntil files).2 = some obstacle := hobstacle
    obtain ⟨created, rest, hfiles, hupdated, -⟩ := Directory.updated_createUntil d files
    refine ⟨?_, ?_, created, ⟨rest, hfiles.symm⟩, hupdated⟩
    · rw [houtcome, hmade]
    · rw [hprinted, hmade]
      rfl

/-- Every run carries out a plan that asks for no files but those of the arguments. -/
theorem exists_asks_run :
    ∃ p files texts outcome, run args d = { directory := d : Session }.follow p ∧
      Asks p files texts outcome ∧ ∀ f ∈ files, f.1 ∈ args.outputPaths := by
  cases hread : d.read args.input with
  | error obstacle =>
    exact ⟨_, _, _, _, run_eq_follow_of_unreadable args d hread, asks_plan_of_unreadable args _,
      by simp⟩
  | ok text =>
    -- The rules for plans are gone through in the order in which a run can end.
    refine ⟨plan args (.ok text), ?_⟩
    by_cases hbase : args.baseAddress.toNat % 4 = 0
    case neg =>
      exact ⟨_, _, _, run_eq_follow args d hread, asks_plan_of_misaligned hbase text, by simp⟩
    have hsets : args.Sets ⟨args.baseAddress, args.keepGoing, hbase⟩ := ⟨rfl, rfl⟩
    cases hlayout : (Program.layOut text ⟨args.baseAddress, args.keepGoing, hbase⟩).run.value with
    | error r =>
      exact ⟨_, _, _, run_eq_follow args d hread, asks_plan_of_rejected_layout hsets hlayout,
        by simp⟩
    | ok layout =>
      cases hencode : (Program.encode layout ⟨args.baseAddress, args.keepGoing, hbase⟩).run.value with
      | error r =>
        exact ⟨_, _, _, run_eq_follow args d hread,
          asks_plan_of_rejected_encoding hsets hlayout hencode,
          fun f => Arguments.fst_mem_outputPaths_of_expanded⟩
      | ok assembly =>
        refine ⟨_, _, _, run_eq_follow args d hread, asks_plan_of_encode hsets hlayout hencode, ?_⟩
        intro f hf
        rcases List.mem_append.mp hf with hmem | hmem
        · exact Arguments.fst_mem_outputPaths_of_expanded hmem
        · exact Arguments.fst_mem_outputPaths_of_output hmem

theorem contents_run_of_not_asked {location : Location}
    (h : ∀ path ∈ args.outputPaths, ¬d.Names path location) :
    (run args d).1.directory.contents location = d.contents location := by
  obtain ⟨p, files, texts, outcome, hrun, hasks, hpaths⟩ := exists_asks_run args d
  obtain ⟨created, rest, rfl, hupdated, -⟩ := Directory.updated_createUntil d files
  rw [hrun, (Session.follow_of_asks hasks { directory := d }).1]
  exact hupdated.other location fun f hf => h f.1 (hpaths f (List.mem_append_left _ hf))

end Runs

/-- **A run touches what it is asked to touch.**  If the input cannot be read, the base address is
misaligned or the program has no layout, then no file changes and nothing is printed.  If the layout has
no assembly, then nothing is printed and at most the expanded program is written.  If there is an
assembly, then the files that are asked for are created one after the other, the expanded program first,
then the words and the tables.  If all of them can be created, the run succeeds and prints the listing, or
nothing if there is an output; otherwise it stops at the first that cannot be created, and nothing is
printed.  Whatever happens, no other file changes. -/
theorem run_touches_what_is_asked (args : Arguments) (d : Directory) :
    (((∃ obstacle, d.read args.input = .error obstacle) ∨ args.baseAddress.toNat % 4 ≠ 0 ∨
        ∃ text options r, d.read args.input = .ok text ∧ args.Sets options ∧
          (Program.layOut text options).run.value = .error r) →
      (run args d).1.directory = d ∧ (run args d).1.printed = "" ∧ (run args d).2 ≠ .ok ()) ∧
    (∀ text options layout, d.read args.input = .ok text → args.Sets options →
      (Program.layOut text options).run.value = .ok layout →
      (∀ r, (Program.assemble text options).run.value = .error r →
        let made := d.createUntil (args.expandedFiles layout)
        (run args d).1.directory = made.1 ∧ (run args d).1.printed = "" ∧ (run args d).2 ≠ .ok () ∧
          (made.2 = none → d.Updated (args.expandedFiles layout) made.1) ∧
          (made.2 ≠ none → made.1 = d)) ∧
      ∀ assembly, (Program.assemble text options).run.value = .ok assembly →
        let files := args.expandedFiles layout ++ args.outputFiles assembly
        let made := d.createUntil files
        (run args d).1.directory = made.1 ∧
          (made.2 = none → (run args d).2 = .ok () ∧ d.Updated files made.1 ∧
            (run args d).1.printed =
              if args.output = none then Text.ofLines assembly.listingLines else "") ∧
          ∀ obstacle, made.2 = some obstacle →
            (run args d).2 = .error (.unwritable obstacle.message) ∧ (run args d).1.printed = "" ∧
              ∃ created, created <+: files ∧ d.Updated created made.1) ∧
    ∀ location, (∀ path ∈ args.outputPaths, ¬d.Names path location) →
      (run args d).1.directory.contents location = d.contents location := by
  refine ⟨untouched_of_early_trouble args d, ?_, fun location => contents_run_of_not_asked args d⟩
  intro text options layout hread hsets hlayout
  exact ⟨fun r => run_of_rejected_encoding args d hread hsets hlayout,
    fun assembly => run_of_assemble args d hread hsets hlayout⟩

/-- With two paths to one file in a folder, the words replace the expanded program. -/
theorem run_touches_what_is_asked_of_shared_path :
    let source : Folder := .inside .here "src"
    let out : Folder := .inside .here "out"
    let d := Directory.inFolders [source, out] [(⟨source, "a.s"⟩, "x: j x".toUTF8)]
    let args : Arguments :=
      { input := "src/a.s"
        output := some "out/a"
        expanded := some "src/../out/a"
        symbols := true }
    (run args d).2 = .ok () ∧ (run args d).1.printed = "" ∧
      (run args d).1.directory.contents ⟨out, "a"⟩ = some "08000000\n".toUTF8 ∧
      (run args d).1.directory.contents ⟨out, "a.sym"⟩ = some "0\tx\n".toUTF8 ∧
      (run args d).1.directory.contents ⟨source, "a.s"⟩ = some "x: j x".toUTF8 := by
  intro source out d args
  have hread : d.read args.input = .ok "x: j x" := by cbv
  have hlayout : (Program.layOut "x: j x" {}).run.value =
      .ok ⟨4, #[⟨⟨"j", ["x"]⟩, 0, 1⟩], #[1], ⟨.distinct, #[⟨"x", 0⟩]⟩⟩ := by cbv
  have hassemble : (Program.assemble "x: j x" {}).run.value =
      .ok ⟨#[0x08000000#32], ⟨.distinct, #[⟨"x", 0⟩]⟩, ⟨.repeating, #[⟨"x", 0⟩]⟩⟩ := by cbv
  have hfiles :
      args.expandedFiles ⟨4, #[⟨⟨"j", ["x"]⟩, 0, 1⟩], #[1], ⟨.distinct, #[⟨"x", 0⟩]⟩⟩ ++
        args.outputFiles ⟨#[0x08000000#32], ⟨.distinct, #[⟨"x", 0⟩]⟩, ⟨.repeating, #[⟨"x", 0⟩]⟩⟩ =
      [("src/../out/a", "j x\n"), ("out/a", "08000000\n"), ("out/a.sym", "0\tx\n")] := by
    cbv
  have hexpanded : d.Names "src/../out/a" ⟨out, "a"⟩ := by
    rw [Directory.Names]
    cbv
  have hwords : d.Names "out/a" ⟨out, "a"⟩ := by
    rw [Directory.Names]
    cbv
  have hlabels : d.Names "out/a.sym" ⟨out, "a.sym"⟩ := by
    rw [Directory.Names]
    cbv
  have hmade : (d.createUntil [("src/../out/a", "j x\n"), ("out/a", "08000000\n"),
      ("out/a.sym", "0\tx\n")]).2 = none := by
    cbv
  obtain ⟨-, hstages, -⟩ := run_touches_what_is_asked args d
  obtain ⟨hdirectory, hcreated, -⟩ := (hstages "x: j x" {} _ hread ⟨rfl, rfl⟩ hlayout).2 _ hassemble
  rw [hfiles] at hdirectory hcreated
  obtain ⟨houtcome, hupdated, hprinted⟩ := hcreated hmade
  rw [← hdirectory] at hupdated
  -- The paths name two locations, and each holds what was written there last.
  have hne : ¬d.Names "out/a.sym" ⟨out, "a"⟩ := fun h => absurd (hlabels.eq h) (by decide)
  refine ⟨houtcome, hprinted, ?_, ?_, ?_⟩
  · exact hupdated.last [_] "out/a" _ [_] _ rfl hwords (by simpa using hne)
  · exact hupdated.last [_, _] "out/a.sym" _ [] _ rfl hlabels (by simp)
  · refine (hupdated.other ⟨source, "a.s"⟩ ?_).trans (by cbv)
    simp only [List.forall_mem_cons, List.not_mem_nil, false_implies, implies_true, and_true]
    exact ⟨fun h => absurd (hexpanded.eq h) (by decide), fun h => absurd (hwords.eq h) (by decide),
      fun h => absurd (hlabels.eq h) (by decide)⟩

end MipsAssembler.CommandLine
