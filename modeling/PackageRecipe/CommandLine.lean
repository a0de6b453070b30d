/-!
# Command lines

What a user asks for by the arguments of a call. `Command.ofArguments` reads
them: flags, then the name of a command, then its operand and its option, in any
order. Behind `--` all arguments are operands.
-/

namespace PackageRecipe

/-- What a user asks for. -/
inductive Command where
  /-- Serve an editor. -/
  | serve
  /-- Report the problems of a recipe. -/
  | check (file : String)
  /-- Print the command line of a task. -/
  | resolveTask (definition : String) (toolPath : Option String)
  /-- Print the tasks of a folder. -/
  | tasks (folder : String)
  /-- Search the registry. -/
  | search (query : String)
deriving DecidableEq, Repr

/-- Why there is no command to run. -/
inductive Command.Refusal where
  | unknownCommand
  /-- A flag that is not known, or one operand too many. -/
  | unknownArgument
  | missingArgument
  /-- An empty path, or an option without a value. -/
  | invalidValue
  /-- An option that is given twice. -/
  | repeatedOption
  /-- A value for a flag that takes none. -/
  | surplusValue
  /-- The help was asked for. -/
  | help
  /-- The version was asked for. -/
  | version
deriving DecidableEq, Repr

namespace Command

/-! ## The arguments of a command -/

/-- What a command takes besides the flags for help. -/
structure Shape where
  /-- Whether it takes an operand. -/
  takesOperand : Bool := true
  /-- Whether the operand must not be empty. -/
  nonempty : Bool := false
  /-- The name of its option, if it takes one. -/
  option : Option String := none

/-- A value that was given but not looked at yet. -/
inductive Pending where
  | operand (value : String)
  | option (value : Option String)

/-- What has been read of the arguments of a command. -/
structure Reading where
  operand : Option String := none
  option : Option String := none
  pending : Option Pending := none
  /-- Whether the next argument may be the value of the option. -/
  awaiting : Bool := false
  /-- Whether an operand was given. -/
  sawOperand : Bool := false
  /-- Whether only operands follow. -/
  onlyOperands : Bool := false

namespace Reading

/-- Looks at the value that was given last. -/
def settle (shape : Shape) (r : Reading) : Except Refusal Reading :=
  match r.pending with
  | none => .ok r
  | some (.operand value) =>
    if shape.nonempty && value.isEmpty then .error .invalidValue
    else .ok { r with operand := some value, pending := none }
  | some (.option none) => .error .invalidValue
  | some (.option (some value)) =>
    if r.option.isSome then .error .repeatedOption
    else .ok { r with option := some value, pending := none }

/-- Takes an operand, of which there is at most one. -/
def takeOperand (shape : Shape) (r : Reading) (value : String) : Except Refusal Reading :=
  if shape.takesOperand && !r.sawOperand then do
    let r ← r.settle shape
    pure { r with pending := some (.operand value), sawOperand := true, awaiting := false }
  else .error .unknownArgument

/-- A long flag without its dashes: its name, and what follows the equals sign. -/
def cutFlag (flag : List Char) : String × Option String :=
  match flag.dropWhile (· != '=') with
  | [] => (String.ofList flag, none)
  | _ :: value => (String.ofList (flag.takeWhile (· != '=')), some (String.ofList value))

/-- Takes a long flag. -/
def takeFlag (shape : Shape) (r : Reading) (flag : List Char) : Except Refusal Reading :=
  let (name, value) := cutFlag flag
  if name = "help" then
    if value.isSome then .error .surplusValue
    else do
      let _ ← r.settle shape
      .error .help
  else if shape.option = some name then do
    let r ← r.settle shape
    let r := { r with pending := some (.option value), awaiting := value.isNone }
    if value.isSome then r.settle shape else pure r
  else .error .unknownArgument

/-- Takes an argument. -/
def take (shape : Shape) (r : Reading) (argument : String) : Except Refusal Reading :=
  if r.onlyOperands then r.takeOperand shape argument
  else
    match argument.toList with
    | ['-', '-'] => .ok { r with onlyOperands := true }
    | '-' :: '-' :: flag => r.takeFlag shape flag
    | '-' :: 'h' :: _ => do
      let _ ← r.settle shape
      .error .help
    | '-' :: _ :: _ => .error .unknownArgument
    | _ =>
      if r.awaiting then
        .ok { r with pending := some (.option (some argument)), awaiting := false }
      else r.takeOperand shape argument

/-- Takes all arguments. -/
def ofArguments (shape : Shape) (arguments : List String) : Except Refusal Reading := do
  let r ← arguments.foldlM (take shape) {}
  r.settle shape

/-- The operand, which must be given. -/
def required (r : Reading) : Except Refusal String :=
  match r.operand with
  | some value => .ok value
  | none => .error .missingArgument

end Reading

/-! ## Commands -/

/-- What the name of a command stands for: what it takes, and the command for what
was given. -/
def named? : String → Option (Shape × (Reading → Except Refusal Command))
  | "serve" => some ({ takesOperand := false }, fun _ => .ok .serve)
  | "check" => some ({ nonempty := true }, fun r => r.required.map .check)
  | "resolve-task" =>
    some ({ option := some "dub-path" }, fun r => r.required.map (.resolveTask · r.option))
  | "tasks" => some ({ nonempty := true }, fun r => .ok (.tasks (r.operand.getD ".")))
  | "search" => some ({}, fun r => r.required.map .search)
  | _ => none

/-- The name under which the help for commands is asked for. -/
def helpName : String := "help"

/-- The answer to a call for help on commands, of which only one can be named. -/
def helpOn : List String → Refusal
  | [] => .help
  | [name] => if name = helpName || (named? name).isSome then .help else .unknownCommand
  | _ => .unknownCommand

/-- Whether an argument names a command. -/
def isName (argument : String) : Bool :=
  argument = helpName || (named? argument).isSome

/-- The answer to arguments behind `--` at the place of a command. -/
def withoutName : List String → Except Refusal (Option Command)
  | [] => .ok none
  | argument :: _ => .error (if isName argument then .unknownArgument else .unknownCommand)

/-- The answer to an argument that names no command. -/
def refuse : List Char → Refusal
  | '-' :: '-' :: flag =>
    match Reading.cutFlag flag with
    | ("help", none) => .help
    | ("version", none) => .version
    | ("help", some _) => .surplusValue
    | ("version", some _) => .surplusValue
    | _ => .unknownArgument
  | '-' :: 'h' :: _ => .help
  | '-' :: 'V' :: _ => .version
  | '-' :: _ :: _ => .unknownArgument
  | _ => .unknownCommand

/-- Reads the arguments behind the name of the program. Without any there is no
command. -/
def ofArguments : List String → Except Refusal (Option Command)
  | [] => .ok none
  | "--" :: rest => withoutName rest
  | argument :: rest =>
    if argument = helpName then .error (helpOn rest)
    else
      match named? argument with
      | some (shape, command) => do
        let r ← Reading.ofArguments shape rest
        (command r).map some
      | none => .error (refuse argument.toList)

end Command

end PackageRecipe
