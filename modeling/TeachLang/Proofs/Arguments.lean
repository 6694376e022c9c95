import TeachLang.CommandLine

/-!
# Arguments

Arguments are a series of **items**: modes, each with the path that belongs to it, and files. What
starts like a flag and names no mode is an item as well, and so is a mode that lacks its path.
`Item.ofArguments` takes arguments apart like that, whatever can go together, and loses nothing
(`Item.spelled_ofArguments`).

Options are read exactly from arguments with one file, at most one mode, and nothing else
(`Options.read?_eq_some_iff`). So there are only a few shapes that the arguments can have, in which
the file stands in front of the mode or behind it (`Options.read?_exact`).
-/

namespace TeachLang.CommandLine

/-- The arguments that ask for a mode. -/
def Mode.arguments : Mode → List String
  | run => []
  | check => ["--check"]
  | emit path => ["--emit", path]

/-- The modes that arguments have to ask for to get a mode. -/
def Mode.asked : Mode → List Mode
  | run => []
  | mode => [mode]

/-- What one or two arguments stand for on their own. -/
inductive Item where
  /-- a mode other than to run -/
  | mode (mode : Mode)
  /-- a file -/
  | file (path : String)
  /-- a flag that names no mode -/
  | unknown (flag : String)
  /-- a mode that lacks its path -/
  | incomplete
  deriving DecidableEq, Repr

namespace Item

/-- The items of arguments, from left to right. The argument behind `--emit` belongs to it. -/
def ofArguments : List String → List Item
  | [] => []
  | argument :: arguments =>
    if argument = "--check" then .mode .check :: ofArguments arguments
    else if argument = "--emit" then
      match arguments with
      | [] => [.incomplete]
      | path :: arguments => .mode (.emit path) :: ofArguments arguments
    else if isFlag argument then .unknown argument :: ofArguments arguments
    else .file argument :: ofArguments arguments

/-- The arguments that stand for an item. -/
def spelled : Item → List String
  | mode m => m.arguments
  | file path => [path]
  | unknown flag => [flag]
  | incomplete => ["--emit"]

/-- The mode that an item is, if it is one. -/
def mode? : Item → Option Mode
  | mode m => some m
  | _ => none

/-- The file that an item is, if it is one. -/
def file? : Item → Option String
  | file path => some path
  | _ => none

/-- Whether an item is a mode or a file. -/
def isSound : Item → Bool
  | mode _ | file _ => true
  | unknown _ | incomplete => false

/-- The modes among items. -/
def modes (items : List Item) : List Mode := items.filterMap mode?

/-- The files among items. -/
def files (items : List Item) : List String := items.filterMap file?

variable {items : List Item} {argument path : String} {arguments : List String}

@[simp] theorem modes_nil : modes [] = [] := rfl

@[simp] theorem files_nil : files [] = [] := rfl

@[simp] theorem modes_mode (m : Mode) : modes (.mode m :: items) = m :: modes items := rfl

@[simp] theorem modes_file (path : String) : modes (.file path :: items) = modes items := rfl

@[simp] theorem files_mode (m : Mode) : files (.mode m :: items) = files items := rfl

@[simp] theorem files_file (path : String) : files (.file path :: items) = path :: files items :=
  rfl

theorem isFlag_check : isFlag "--check" = true := by decide

theorem isFlag_emit : isFlag "--emit" = true := by decide

theorem ofArguments_check (arguments : List String) :
    ofArguments ("--check" :: arguments) = .mode .check :: ofArguments arguments := by
  rw [ofArguments.eq_def]
  exact if_pos rfl

theorem ofArguments_emit (path : String) (arguments : List String) :
    ofArguments ("--emit" :: path :: arguments) = .mode (.emit path) :: ofArguments arguments := by
  rw [ofArguments.eq_def]
  exact (if_neg (by decide)).trans (if_pos rfl)

theorem ofArguments_file (h : isFlag argument = false) (arguments : List String) :
    ofArguments (argument :: arguments) = .file argument :: ofArguments arguments := by
  have hcheck : argument ≠ "--check" := by
    rintro rfl
    cases isFlag_check.symm.trans h
  have hemit : argument ≠ "--emit" := by
    rintro rfl
    cases isFlag_emit.symm.trans h
  rw [ofArguments.eq_def]
  simp only [if_neg hcheck, if_neg hemit, h, Bool.false_eq_true, if_false]

/-- An argument begins an item: a mode, a file or something unsound. -/
theorem ofArguments_cons_cases (argument : String) (arguments : List String) :
    ∃ item items, ofArguments (argument :: arguments) = item :: items ∧
      (item.isSound = false ∨
        ((argument = "--check" ∨ argument = "--emit") ∧ ∃ m, item = .mode m) ∨
          (isFlag argument = false ∧ item = .file argument)) := by
  rw [ofArguments.eq_def]
  dsimp only
  split
  · next hcheck => exact ⟨_, _, rfl, .inr (.inl ⟨.inl hcheck, _, rfl⟩)⟩
  · split
    · next hemit =>
      split
      · exact ⟨_, _, rfl, .inl rfl⟩
      · exact ⟨_, _, rfl, .inr (.inl ⟨.inr hemit, _, rfl⟩)⟩
    · split
      · exact ⟨_, _, rfl, .inl rfl⟩
      · next hflag => exact ⟨_, _, rfl, .inr (.inr ⟨eq_false_of_ne_true hflag, rfl⟩)⟩

/-- Arguments are put together from their items. -/
theorem spelled_ofArguments (arguments : List String) :
    (ofArguments arguments).flatMap spelled = arguments := by
  fun_induction ofArguments arguments <;> simp_all [List.flatMap_cons, spelled, Mode.arguments]

/-- Nothing asks for running. -/
theorem ne_run_of_mem {m : Mode} (h : .mode m ∈ ofArguments arguments) : m ≠ .run := by
  fun_induction ofArguments arguments <;> simp_all
  all_goals rcases h with rfl | h <;> simp_all

theorem ne_run_of_mem_modes {m : Mode} (h : m ∈ modes (ofArguments arguments)) : m ≠ .run := by
  obtain ⟨item, hitem, hmode⟩ := List.mem_filterMap.mp h
  cases item with
  | mode m' =>
    obtain rfl := Option.some.inj hmode
    exact ne_run_of_mem hitem
  | file path => cases hmode
  | unknown flag => cases hmode
  | incomplete => cases hmode

/-- A file among the items does not look like a flag. -/
theorem not_isFlag_of_mem (h : .file path ∈ ofArguments arguments) : isFlag path = false := by
  fun_induction ofArguments arguments <;> simp_all
  rcases h with rfl | h <;> simp_all

end Item

namespace Mode

variable {mode m m' : Mode}

theorem asked_of_ne_run (h : mode ≠ .run) : mode.asked = [mode] := by
  cases mode with
  | run => exact absurd rfl h
  | check => rfl
  | emit path => rfl

/-- At most one mode can be asked for. -/
theorem asked_ne_two (mode m m' : Mode) (more : List Mode) : m :: m' :: more ≠ mode.asked := by
  cases mode <;> simp [asked]

theorem asked_inj : m.asked = m'.asked ↔ m = m' := by
  cases m <;> cases m' <;> simp [asked]

end Mode

open Item (ofArguments modes files)

/-- Reading goes on well if what was read so far and what is left make one file and at most one
mode. -/
theorem readFrom_eq_some_iff {file : Option String} {mode : Mode} {arguments : List String}
    {options : Options} :
    readFrom file mode arguments = some options ↔
      file.toList ++ files (ofArguments arguments) = [options.file] ∧
        mode.asked ++ modes (ofArguments arguments) = options.mode.asked ∧
          ∀ item ∈ ofArguments arguments, item.isSound = true := by
  fun_induction readFrom file mode arguments with
  | case1 file mode =>
    obtain ⟨found, asked⟩ := options
    cases file <;> simp [ofArguments, files, modes, Mode.asked_inj]
  | case2 file mode argument arguments hcheck ih =>
    obtain ⟨rfl, rfl⟩ := hcheck
    rw [ih, Item.ofArguments_check, Item.files_mode, Item.modes_mode, List.forall_mem_cons]
    exact and_congr_right' (and_congr_right' (iff_and_self.mpr fun _ => rfl))
  | case3 file mode argument hcheck hemit =>
    obtain ⟨rfl, rfl⟩ := hemit
    refine iff_of_false nofun fun h => ?_
    cases h.2.2 .incomplete (List.mem_cons_self ..)
  | case4 file mode argument hcheck hemit path arguments ih =>
    obtain ⟨rfl, rfl⟩ := hemit
    rw [ih, Item.ofArguments_emit, Item.files_mode, Item.modes_mode, List.forall_mem_cons]
    exact and_congr_right' (and_congr_right' (iff_and_self.mpr fun _ => rfl))
  | case5 file mode argument arguments hcheck hemit hrefused =>
    refine iff_of_false nofun ?_
    rintro ⟨hfiles, hmodes, hsound⟩
    obtain ⟨item, items, hitems, hitem⟩ := Item.ofArguments_cons_cases argument arguments
    rw [hitems] at hfiles hmodes hsound
    rcases hitem with hitem | ⟨hmode, m, rfl⟩ | ⟨hflag, rfl⟩
    · exact Bool.false_ne_true (hitem.symm.trans (hsound item (List.mem_cons_self ..)))
    -- a mode is only refused behind another
    · have hne : mode ≠ .run := fun hrun =>
        hmode.elim (fun h => hcheck ⟨h, hrun⟩) fun h => hemit ⟨h, hrun⟩
      rw [Mode.asked_of_ne_run hne] at hmodes
      exact options.mode.asked_ne_two mode m _ hmodes
    -- a file is only refused behind another
    · rw [hflag, Bool.false_or] at hrefused
      obtain ⟨path, rfl⟩ := Option.isSome_iff_exists.mp hrefused
      cases hfiles
  | case6 file mode argument arguments hcheck hemit hrefused ih =>
    rw [Bool.or_eq_true, not_or] at hrefused
    obtain ⟨hflag, hfile⟩ := hrefused
    obtain rfl := Option.not_isSome_iff_eq_none.mp hfile
    rw [ih, Item.ofArguments_file (eq_false_of_ne_true hflag), Item.files_file, Item.modes_file,
      List.forall_mem_cons]
    exact and_congr_right' (and_congr_right' (iff_and_self.mpr fun _ => rfl))

/-- Options are read from arguments with one file, at most one mode, and nothing else. -/
theorem Options.read?_eq_some_iff {arguments : List String} {options : Options} :
    read? arguments = some options ↔
      files (ofArguments arguments) = [options.file] ∧
        modes (ofArguments arguments) = options.mode.asked ∧
          ∀ item ∈ ofArguments arguments, item.isSound = true :=
  readFrom_eq_some_iff

namespace Item

variable {items : List Item} {path : String} {m : Mode} {arguments : List String}

/-- Sound items without a file are modes. -/
theorem eq_map_modes (hsound : ∀ item ∈ items, item.isSound = true) (hfiles : files items = []) :
    items = (modes items).map mode := by
  induction items with
  | nil => rfl
  | cons item items ih =>
    obtain ⟨hitem, hitems⟩ := List.forall_mem_cons.mp hsound
    cases item with
    | mode m => exact congrArg (mode m :: ·) (ih hitems hfiles)
    | file path => cases hfiles
    | unknown flag => cases hitem
    | incomplete => cases hitem

/-- Sound items without a mode are files. -/
theorem eq_map_files (hsound : ∀ item ∈ items, item.isSound = true) (hmodes : modes items = []) :
    items = (files items).map file := by
  induction items with
  | nil => rfl
  | cons item items ih =>
    obtain ⟨hitem, hitems⟩ := List.forall_mem_cons.mp hsound
    cases item with
    | mode m => cases hmodes
    | file path => exact congrArg (file path :: ·) (ih hitems hmodes)
    | unknown flag => cases hitem
    | incomplete => cases hitem

/-- A file and at most one mode stand in one of two orders. -/
theorem eq_of_files_of_modes (hsound : ∀ item ∈ items, item.isSound = true)
    (hfiles : files items = [path]) (hmodes : modes items = m.asked) :
    items = m.asked.map mode ++ [file path] ∨ items = file path :: m.asked.map mode := by
  cases items with
  | nil => cases hfiles
  | cons item items =>
    obtain ⟨hitem, hitems⟩ := List.forall_mem_cons.mp hsound
    cases item with
    | mode m' =>
      have hm : m' :: modes items = m.asked := hmodes
      have hnone : modes items = [] := by
        cases hothers : modes items with
        | nil => rfl
        | cons second others =>
          rw [hothers] at hm
          exact absurd hm (m.asked_ne_two m' second others)
      left
      rw [eq_map_files hitems hnone, show files items = [path] from hfiles, ← hm, hnone]
      rfl
    | file path' =>
      obtain ⟨rfl, hnone⟩ : path' = path ∧ files items = [] := List.cons.inj hfiles
      right
      rw [eq_map_modes hitems hnone, show modes items = m.asked from hmodes]
    | unknown flag => cases hitem
    | incomplete => cases hitem

/-- The items of a mode are spelled like the mode. -/
theorem spelled_asked (m : Mode) : (m.asked.map mode).flatMap spelled = m.arguments := by
  cases m <;> rfl

theorem ofArguments_mode_file (hpath : isFlag path = false) (m : Mode) :
    ofArguments (m.arguments ++ [path]) = m.asked.map mode ++ [file path] := by
  cases m with
  | run => exact ofArguments_file hpath []
  | check => exact (ofArguments_check _).trans (congrArg _ (ofArguments_file hpath []))
  | emit output => exact (ofArguments_emit _ _).trans (congrArg _ (ofArguments_file hpath []))

theorem ofArguments_file_mode (hpath : isFlag path = false) (m : Mode) :
    ofArguments (path :: m.arguments) = file path :: m.asked.map mode := by
  rw [ofArguments_file hpath]
  cases m with
  | run => rfl
  | check => exact congrArg _ (ofArguments_check [])
  | emit output => exact congrArg _ (ofArguments_emit output [])

/-- Why arguments with some items are refused. -/
inductive Refused (items : List Item) : Prop where
  /-- a mode is repeated, or two modes are combined -/
  | modes : 2 ≤ (modes items).length → Refused items
  /-- there is a second file -/
  | files : 2 ≤ (files items).length → Refused items
  /-- there is no file -/
  | noFile : Item.files items = [] → Refused items
  /-- there is an unknown flag -/
  | unknown (flag : String) : unknown flag ∈ items → Refused items
  /-- there is no path to emit to -/
  | incomplete : incomplete ∈ items → Refused items

/-- Sound items are refused, or they make options. -/
theorem refused_or_exists_options (hsound : ∀ item ∈ ofArguments arguments, item.isSound = true) :
    Refused (ofArguments arguments) ∨ ∃ options, Options.read? arguments = some options := by
  rcases hfiles : files (ofArguments arguments) with _ | ⟨path, _ | ⟨second, more⟩⟩
  · exact .inl (.noFile hfiles)
  · rcases hmodes : modes (ofArguments arguments) with _ | ⟨m, _ | ⟨second, more⟩⟩
    · exact .inr ⟨⟨path, .run⟩, Options.read?_eq_some_iff.mpr ⟨hfiles, hmodes, hsound⟩⟩
    · have hmem : m ∈ modes (ofArguments arguments) := by
        rw [hmodes]
        exact List.mem_singleton_self m
      have hm : m ≠ .run := ne_run_of_mem_modes hmem
      have hasked := hmodes.trans (Mode.asked_of_ne_run hm).symm
      exact .inr ⟨⟨path, m⟩, Options.read?_eq_some_iff.mpr ⟨hfiles, hasked, hsound⟩⟩
    · exact .inl (.modes (by simp [hmodes]))
  · exact .inl (.files (by simp [hfiles]))

end Item

namespace Options

variable {arguments : List String} {options : Options}

/-- Options are read from a file and at most one mode, in either order. -/
theorem read?_eq_some_iff_arguments : read? arguments = some options ↔
    isFlag options.file = false ∧ (arguments = options.mode.arguments ++ [options.file] ∨
      arguments = options.file :: options.mode.arguments) := by
  obtain ⟨path, m⟩ := options
  constructor
  · intro h
    obtain ⟨hfiles, hmodes, hsound⟩ := read?_eq_some_iff.mp h
    have hitems := Item.eq_of_files_of_modes hsound hfiles hmodes
    have hmem : .file path ∈ Item.ofArguments arguments := by
      rcases hitems with hitems | hitems <;> simp [hitems]
    refine ⟨Item.not_isFlag_of_mem hmem, ?_⟩
    · rw [← Item.spelled_ofArguments arguments]
      rcases hitems with hitems | hitems <;> rw [hitems]
      · left
        rw [List.flatMap_append, Item.spelled_asked]
        rfl
      · right
        rw [List.flatMap_cons, Item.spelled_asked]
        rfl
  · rintro ⟨hpath, rfl | rfl⟩ <;> rw [read?_eq_some_iff]
    · rw [Item.ofArguments_mode_file hpath]
      cases m <;> simp [Mode.asked, Item.isSound]
    · rw [Item.ofArguments_file_mode hpath]
      cases m <;> simp [Mode.asked, Item.isSound]

/-- Nothing is read from other arguments. -/
theorem read?_eq_none_iff : read? arguments = none ↔ Item.Refused (ofArguments arguments) := by
  constructor
  · intro h
    by_cases hsound : ∀ item ∈ ofArguments arguments, item.isSound = true
    · refine (Item.refused_or_exists_options hsound).resolve_right ?_
      rintro ⟨options, hoptions⟩
      cases h.symm.trans hoptions
    · simp only [Classical.not_forall] at hsound
      obtain ⟨item, hitem, hunsound⟩ := hsound
      cases item with
      | mode m => exact absurd rfl hunsound
      | file path => exact absurd rfl hunsound
      | unknown flag => exact .unknown flag hitem
      | incomplete => exact .incomplete hitem
  · intro h
    rw [Option.eq_none_iff_forall_ne_some]
    intro options hoptions
    obtain ⟨hfiles, hmodes, hsound⟩ := read?_eq_some_iff.mp hoptions
    cases h with
    | modes hmany =>
      rw [hmodes] at hmany
      cases hm : options.mode <;> rw [hm] at hmany <;> simp [Mode.asked] at hmany
    | files hmany => simp [hfiles] at hmany
    | noFile hnone => cases hfiles.symm.trans hnone
    | unknown flag hmem => cases hsound _ hmem
    | incomplete hmem => cases hsound _ hmem

/-- **Arguments are read exactly.** Options are read if and only if the arguments are those of a
mode and a file that does not look like a flag, in either order, and they are this file and this
mode. So the order makes no difference. Nothing is read if and only if the items of the arguments
are a mode too many, a file too many, no file, an unknown flag or a mode without its path. -/
theorem read?_exact (arguments : List String) :
    (∀ options, read? arguments = some options ↔ isFlag options.file = false ∧
      (arguments = options.mode.arguments ++ [options.file] ∨
        arguments = options.file :: options.mode.arguments)) ∧
    (∀ path mode, isFlag path = false →
      read? (path :: Mode.arguments mode) = read? (mode.arguments ++ [path])) ∧
    (read? arguments = none ↔ Item.Refused (ofArguments arguments)) := by
  refine ⟨fun options => read?_eq_some_iff_arguments, fun path mode hpath => ?_, read?_eq_none_iff⟩
  have hbefore := read?_eq_some_iff_arguments.mpr
    (show isFlag (⟨path, mode⟩ : Options).file = false ∧ _ from ⟨hpath, .inr rfl⟩)
  have hbehind := read?_eq_some_iff_arguments.mpr
    (show isFlag (⟨path, mode⟩ : Options).file = false ∧ _ from ⟨hpath, .inl rfl⟩)
  exact hbefore.trans hbehind.symm

/-- The path to emit to may look like a mode, in which case it is none, and a second mode is one too
many. -/
theorem read?_emit_exact : isFlag "main.plc" = false ∧
    read? ["--emit", "--check", "main.plc"] = some ⟨"main.plc", .emit "--check"⟩ ∧
    read? ["main.plc", "--emit", "--check"] = read? ["--emit", "--check", "main.plc"] ∧
    read? ["--check", "--emit", "Main.java", "main.plc"] = none :=
  ⟨by decide, ((read?_exact _).1 _).mpr ⟨by decide, .inl rfl⟩,
    (read?_exact []).2.1 "main.plc" (.emit "--check") (by decide),
    (read?_exact _).2.2.mpr (.modes (by decide))⟩

end Options

end TeachLang.CommandLine
