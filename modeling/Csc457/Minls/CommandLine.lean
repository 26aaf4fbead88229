import Csc457.Minls.Selection

/-!
# The command line

The usage message as a grammar, and what main makes of its arguments.  An operand is any
string, so one list of arguments can be of the form in several ways.
-/

set_option autoImplicit false

namespace Csc457.Minls

structure MainCall where
  options : Options
  /-- What main opens. -/
  imagefile : Arg
  /-- The argument `path` of list_directory. -/
  path : Arg
  deriving DecidableEq

/-- `none` is the usage message.  Both the image and the path are `argv[argc - 1]`. -/
def mainCall (args : List Arg) : Option MainCall :=
  match parseArguments args ⟨false, -1, -1⟩, args.getLast? with
  | some options, some last => some ⟨options, last, last⟩
  | _, _ => none

theorem mainCall_last {args : List Arg} {call : MainCall} (isCall : mainCall args = some call) :
    args.getLast? = some call.imagefile ∧ call.path = call.imagefile := by
  unfold mainCall at isCall
  split at isCall
  · next options last _ isLast =>
      obtain rfl := Option.some.inj isCall
      exact ⟨isLast, rfl⟩
  · cases isCall

theorem main_mainCall (env : Environment) (args : List Arg) :
    main env args = match mainCall args with
      | none => ([.usage], .failure)
      | some call => match env.files call.imagefile with
        | none => ([.opened call.imagefile, .perror "Error opening image file"], .failure)
        | some img =>
            (.opened call.imagefile :: (showImage env img call.options).1,
              (showImage env img call.options).2) := by
  unfold main mainCall
  cases parseArguments args ⟨false, -1, -1⟩ with
  | none => cases args.getLast? <;> rfl
  | some options =>
      cases args.getLast? with
      | none => rfl
      | some last => rfl

theorem main_head (env : Environment) (args : List Arg) :
    (main env args).1.head? = some (match mainCall args with
      | none => .usage
      | some call => .opened call.imagefile) := by
  rw [main_mainCall]
  cases mainCall args with
  | none => rfl
  | some call =>
      simp only
      cases env.files call.imagefile with
      | none => rfl
      | some img => rfl

/-! ## The grammar -/

/-- `[ -v ] [ -p part [ -s subpart ] ] imagefile [ path ]` -/
structure Command where
  verbose : Bool
  partition : Option (Arg × Option Arg)
  imagefile : Arg
  path : Option Arg

def Command.part (c : Command) : Option Arg := c.partition.map Prod.fst

def Command.subpart (c : Command) : Option Arg := c.partition.bind Prod.snd

def Command.flags (c : Command) : List Arg :=
  (if c.verbose then [['-', 'v']] else []) ++
    match c.partition with
    | none => []
    | some (part, none) => [['-', 'p'], part]
    | some (part, some subpart) => [['-', 'p'], part, ['-', 's'], subpart]

def Command.args (c : Command) : List Arg := c.flags ++ c.imagefile :: c.path.toList

def root : Arg := ['/']

/-- main takes -1 as not given. -/
def given (i : Int) : Option Int := if i = -1 then none else some i

/-- main understands the command: a part is the number atoi makes of it. -/
structure Means (call : MainCall) (c : Command) : Prop where
  path : call.path = c.path.getD root
  verbose : call.options.verbose = c.verbose
  part : given call.options.part = c.part.map atoi
  subpart : given call.options.subpart = c.subpart.map atoi

structure Obeys (env : Environment) (args : List Arg) (c : Command) : Prop where
  opens : (main env args).1.head? = some (.opened c.imagefile)
  means : ∃ call, mainCall args = some call ∧ Means call c

/-- Arguments of the form are understood, whichever command they are, and others are
refused with the usage message alone. -/
structure FollowsUsage (env : Environment) (args : List Arg) : Prop where
  form : ∀ c : Command, c.args = args → Obeys env args c
  refused : (∀ c : Command, c.args ≠ args) → main env args = ([.usage], .failure)

/-- The last argument serves as the image and as the path, and it is no option, or one that
makes no difference. -/
structure Command.Plain (c : Command) : Prop where
  path : c.path = some c.imagefile ∨ c.path = none ∧ c.imagefile = root
  part : ∀ value, c.part = some value → atoi value ≠ -1
  subpart : ∀ value, c.subpart = some value → atoi value ≠ -1
  notVerbose : c.imagefile = ['-', 'v'] → c.verbose = true
  notPart : c.imagefile = ['-', 'p'] → c.part.map atoi = some 0
  notSubpart : c.imagefile = ['-', 's'] → c.subpart.map atoi = some 0

/-- From the left, the last argument is a -p or -s without its value. -/
def ValueMissing : List Arg → Prop
  | [] => False
  | arg :: rest =>
      if arg = ['-', 'p'] ∨ arg = ['-', 's'] then
        match rest with
        | [] => True
        | _ :: rest => ValueMissing rest
      else ValueMissing rest

section Parse
variable {env : Environment} {args : List Arg} {c : Command}

theorem parseArguments_verbose (rest : List Arg) (options : Options) :
    parseArguments (['-', 'v'] :: rest) options =
      parseArguments rest { options with verbose := true } := by
  rw [parseArguments_other (by decide) (by decide), if_pos rfl]

theorem valueMissing_other {arg : Arg} (notPart : arg ≠ ['-', 'p'])
    (notSubpart : arg ≠ ['-', 's']) (rest : List Arg) :
    ValueMissing (arg :: rest) ↔ ValueMissing rest := by
  cases rest <;> simp [ValueMissing, notPart, notSubpart]

theorem parseArguments_none_iff (args : List Arg) (options : Options) :
    parseArguments args options = none ↔ ValueMissing args := by
  fun_induction parseArguments args options with
  | case1 options => simp [ValueMissing]
  | case2 rest options ih => rw [ih, valueMissing_other (by decide) (by decide)]
  | case3 options _ => simp [ValueMissing]
  | case4 options value rest _ ih => simpa [ValueMissing] using ih
  | case5 options _ _ => simp [ValueMissing]
  | case6 options value rest _ _ ih => simpa [ValueMissing] using ih
  | case7 arg rest options _ notPart notSubpart ih =>
      rw [ih, valueMissing_other notPart notSubpart]

theorem mainCall_none_iff : mainCall args = none ↔ args = [] ∨ ValueMissing args := by
  unfold mainCall
  rw [← parseArguments_none_iff args ⟨false, -1, -1⟩, ← List.getLast?_eq_none_iff]
  cases parseArguments args ⟨false, -1, -1⟩ with
  | none => simp
  | some options => cases args.getLast? <;> simp

theorem refused_iff :
    main env args = ([.usage], .failure) ↔ args = [] ∨ ValueMissing args := by
  rw [← mainCall_none_iff]
  constructor
  · intro usage
    have first := main_head env args
    cases isCall : mainCall args with
    | none => rfl
    | some call =>
        rw [usage, isCall] at first
        cases Option.some.inj first
  · intro none
    rw [main_mainCall, none]

def Command.options (c : Command) : Options :=
  ⟨c.verbose, (c.part.map atoi).getD (-1), (c.subpart.map atoi).getD (-1)⟩

theorem parseArguments_flags (c : Command) (rest : List Arg) :
    parseArguments (c.flags ++ rest) ⟨false, -1, -1⟩ = parseArguments rest c.options := by
  obtain ⟨verbose, partition, imagefile, path⟩ := c
  cases verbose with
  | false =>
      rcases partition with _ | ⟨part, _ | subpart⟩ <;>
        simp [Command.flags, Command.options, Command.part, Command.subpart, parseArguments]
  | true =>
      rcases partition with _ | ⟨part, _ | subpart⟩ <;>
        simp [Command.flags, Command.options, Command.part, Command.subpart, parseArguments,
          parseArguments_verbose]

theorem getLast_args (c : Command) : c.args.getLast? = some (c.path.getD c.imagefile) := by
  unfold Command.args
  cases c.path <;> simp [List.getLast?_append]

/-- The options once the last argument was read as one too. -/
def Command.finalOptions (c : Command) : Options where
  verbose := c.options.verbose || decide (c.imagefile = ['-', 'v'])
  part := if c.imagefile = ['-', 'p'] then 0 else c.options.part
  subpart := if c.imagefile = ['-', 's'] then 0 else c.options.subpart

theorem parseArguments_twice (arg : Arg) (options : Options) :
    parseArguments [arg, arg] options = some
      ⟨options.verbose || decide (arg = ['-', 'v']),
        if arg = ['-', 'p'] then 0 else options.part,
        if arg = ['-', 's'] then 0 else options.subpart⟩ := by
  by_cases verbose : arg = ['-', 'v']
  · subst verbose
    simp [parseArguments]
  · by_cases part : arg = ['-', 'p']
    · subst part
      simp [parseArguments, show atoi ['-', 'p'] = 0 from by decide]
    · by_cases subpart : arg = ['-', 's']
      · subst subpart
        simp [parseArguments, show atoi ['-', 's'] = 0 from by decide]
      · simp [parseArguments, verbose, part, subpart]

theorem mainCall_args
    (path : c.path = some c.imagefile ∨ c.path = none ∧ c.imagefile = root) :
    mainCall c.args = some ⟨c.finalOptions, c.imagefile, c.imagefile⟩ := by
  have last := getLast_args c
  have parsed : parseArguments c.args ⟨false, -1, -1⟩ = some c.finalOptions := by
    rw [Command.args, parseArguments_flags]
    obtain isImage | ⟨none, isRoot⟩ := path
    · rw [isImage]
      exact parseArguments_twice c.imagefile c.options
    · simp [none, isRoot, root, parseArguments, Command.finalOptions]
  have isImage : c.path.getD c.imagefile = c.imagefile := by
    obtain isImage | ⟨none, _⟩ := path
    · rw [isImage, Option.getD_some]
    · rw [none, Option.getD_none]
  rw [isImage] at last
  rw [mainCall, parsed, last]

theorem given_getD (value : Option Arg) :
    given ((value.map atoi).getD (-1)) = value.map atoi ↔
      ∀ arg, value = some arg → atoi arg ≠ -1 := by
  cases value with
  | none => simp [given]
  | some arg =>
      by_cases none : atoi arg = -1
      · simp [given, none]
      · simp [given, none]

theorem given_final {value : Option Arg} {replaced : Prop} [Decidable replaced] :
    given (if replaced then 0 else (value.map atoi).getD (-1)) = value.map atoi ↔
      (∀ arg, value = some arg → atoi arg ≠ -1) ∧ (replaced → value.map atoi = some 0) := by
  by_cases isReplaced : replaced
  · rw [if_pos isReplaced]
    constructor
    · intro zero
      refine ⟨?_, fun _ => zero.symm⟩
      rintro arg rfl isNone
      rw [Option.map_some, isNone] at zero
      cases zero
    · intro conditions
      exact (conditions.2 isReplaced).symm
  · rw [if_neg isReplaced, given_getD]
    exact ⟨fun kept => ⟨kept, fun isReplaced' => absurd isReplaced' isReplaced⟩, And.left⟩

theorem obeys_iff : Obeys env c.args c ↔ c.Plain := by
  have verbose : (c.verbose || decide (c.imagefile = ['-', 'v'])) = c.verbose ↔
      (c.imagefile = ['-', 'v'] → c.verbose = true) := by
    cases c.verbose <;> simp
  constructor
  · rintro ⟨opens, call, isCall, means⟩
    have first := (main_head env c.args).symm.trans opens
    rw [isCall] at first
    have isImage : call.imagefile = c.imagefile := by simpa using first
    have path : c.path = some c.imagefile ∨ c.path = none ∧ c.imagefile = root := by
      have isPath : c.imagefile = c.path.getD root := by
        rw [← isImage, ← (mainCall_last isCall).2, means.path]
      cases given : c.path with
      | none =>
          rw [given] at isPath
          exact Or.inr ⟨rfl, isPath⟩
      | some path =>
          rw [given] at isPath
          exact Or.inl (congrArg some isPath.symm)
    obtain rfl := Option.some.inj ((mainCall_args path).symm.trans isCall)
    obtain ⟨part, notPart⟩ := given_final.mp means.part
    obtain ⟨subpart, notSubpart⟩ := given_final.mp means.subpart
    exact ⟨path, part, subpart, verbose.mp means.verbose, notPart, notSubpart⟩
  · intro plain
    have isCall := mainCall_args plain.path
    refine ⟨?_, _, isCall, ?_, verbose.mpr plain.notVerbose,
      given_final.mpr ⟨plain.part, plain.notPart⟩,
      given_final.mpr ⟨plain.subpart, plain.notSubpart⟩⟩
    · rw [main_head, isCall]
    · obtain isImage | ⟨none, isRoot⟩ := plain.path
      · rw [isImage, Option.getD_some]
      · rw [none, Option.getD_none]
        exact isRoot

end Parse

/-- main takes the last argument for the image and for the path, and any list of arguments
for a command line. -/
theorem follows_usage_iff (env : Environment) (args : List Arg) :
    FollowsUsage env args ↔ (∀ c : Command, c.args = args → c.Plain) ∧
      ((∀ c : Command, c.args ≠ args) → args = [] ∨ ValueMissing args) := by
  constructor
  · rintro ⟨form, refused⟩
    refine ⟨?_, fun none => refused_iff.mp (refused none)⟩
    rintro c rfl
    exact obeys_iff.mp (form c rfl)
  · rintro ⟨plain, missing⟩
    refine ⟨?_, fun none => refused_iff.mpr (missing none)⟩
    rintro c rfl
    exact obeys_iff.mpr (plain c rfl)

/-- `disk /etc` opens `/etc`. -/
theorem opens_path :
    (main quiet [['d', 'i', 's', 'k'], ['/', 'e', 't', 'c']]).1.head? =
        some (.opened ['/', 'e', 't', 'c']) ∧
      ¬ FollowsUsage quiet [['d', 'i', 's', 'k'], ['/', 'e', 't', 'c']] := by
  refine ⟨rfl, fun follows => ?_⟩
  have obeys := follows.form ⟨false, none, ['d', 'i', 's', 'k'], some ['/', 'e', 't', 'c']⟩ rfl
  exact absurd obeys.opens (by decide)

end Csc457.Minls
