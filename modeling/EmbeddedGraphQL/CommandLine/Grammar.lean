import EmbeddedGraphQL.Text.Digit

/-!
Arguments of a program: options by name, by an unambiguous beginning of a long name, or by letters
that share one dash; positional arguments; and two dashes, after which nothing is an option.
-/
namespace EmbeddedGraphQL.CommandLine

inductive OptionKind where
  | help
  | version
  | flag
  | value
  deriving DecidableEq, Repr

/-- An option, under its names. A value may have to be one of some choices or a whole number. -/
structure OptionSpec where
  names : List String
  kind : OptionKind
  placeholder : String
  choices : List String
  isWhole : Bool
  help : String
  deriving DecidableEq, Repr

/-- The name under which a value is found. -/
def OptionSpec.name (o : OptionSpec) : String := o.names.head?.getD ""

/-- What stands beside the options: nothing, one text, or a command with its own arguments. -/
inductive Positional where
  | nothing
  | one (name help : String)
  | command (names : List (String × String)) (help : String)
  deriving DecidableEq, Repr

structure Grammar where
  program : String
  description : String
  options : List OptionSpec
  positional : Positional
  deriving DecidableEq, Repr

/-- What arguments say. -/
structure Arguments where
  values : List (String × String)
  flags : List String
  positional : Option String
  rest : List String
  unrecognized : Bool
  deriving DecidableEq, Repr

namespace Arguments

def none : Arguments := ⟨[], [], .none, [], false⟩

/-- The last value given to an option. -/
def value? (a : Arguments) (name : String) : Option String := a.values.reverse.lookup name

end Arguments

/-- What comes of reading arguments. -/
inductive Parse where
  | help
  | version
  | invalid
  | read (a : Arguments)
  deriving DecidableEq, Repr

/-- What one argument may be. -/
inductive ArgumentKind where
  | dashes
  | positional
  | unknown
  | ambiguous
  | option (o : OptionSpec) (name : String) (value : Option String)
  deriving DecidableEq, Repr

namespace Grammar

def find? (g : Grammar) (name : String) : Option OptionSpec :=
  g.options.find? (·.names.contains name)

/-- The part before the first equals sign and the one after it. -/
def assignment? (argument : String) : Option (String × String) :=
  let chars := argument.toList
  let name := chars.takeWhile (· != '=')
  if name.length < chars.length then
    some (String.ofList name, String.ofList (chars.drop (name.length + 1)))
  else none

/-- Every option that an argument may be short for: a beginning of a long name, or a letter with
its value directly behind it. -/
def candidates (g : Grammar) (argument : String) : List ArgumentKind :=
  let all := g.options.flatMap fun o => o.names.map fun name => (o, name)
  if argument.startsWith "--" then
    let (start, value) := match assignment? argument with
      | some (start, value) => (start, some value)
      | none => (argument, none)
    (all.filter fun (_, name) => name.startsWith start).map fun (o, name) => .option o name value
  else
    let letter := String.ofList (argument.toList.take 2)
    let value := String.ofList (argument.toList.drop 2)
    all.filterMap fun (o, name) =>
      if name == letter then some (.option o name (some value))
      else if name.startsWith argument then some (.option o name none)
      else none

/-- Negative numbers are no options. -/
def isNegativeNumber (argument : String) : Bool :=
  match argument.toList with
  | '-' :: rest =>
    let isDigit (c : Char) : Bool := (Text.digitValue? c).isSome
    let whole := rest.takeWhile isDigit
    match rest.drop whole.length with
    | [] => !whole.isEmpty
    | '.' :: fraction => !fraction.isEmpty && fraction.all isDigit
    | _ => false
  | _ => false

def classify (g : Grammar) (argument : String) : ArgumentKind :=
  if !argument.startsWith "-" || argument.length = 1 then .positional
  else match g.find? argument with
    | some o => .option o argument none
    | none =>
      let assigned := (assignment? argument).bind fun (name, value) =>
        (g.find? name).map fun o => ArgumentKind.option o name (some value)
      match assigned, g.candidates argument with
      | some kind, _ => kind
      | none, [kind] => kind
      | none, _ :: _ :: _ => .ambiguous
      | none, [] =>
        if isNegativeNumber argument || argument.toList.contains ' ' then .positional else .unknown

/-- The kinds of arguments in order. -/
def classifyAll (g : Grammar) : List String → List (String × ArgumentKind)
  | [] => []
  | argument :: rest =>
    if argument == "--" then (argument, .dashes) :: rest.map fun a => (a, .positional)
    else (argument, g.classify argument) :: classifyAll g rest

/-- The options that one argument gives, each with its value. A letter without a value may be
followed by more letters; only the last option may still want the next argument. -/
def lettersOf (g : Grammar) (o : OptionSpec) (name : String) (value : Option String) :
    Nat → Option (List (OptionSpec × Option String))
  | 0 => none
  | fuel + 1 =>
    match value with
    | none => some [(o, none)]
    | some text =>
      if o.kind = .value then some [(o, some text)]
      else match text.toList with
        | [] => none
        | c :: rest =>
          if name.startsWith "--" then none
          else
            let next := "-" ++ c.toString
            (g.find? next).bind fun other =>
              let value := if rest.isEmpty then none else some (String.ofList rest)
              (lettersOf g other next value fuel).map ((o, none) :: ·)

/-- Whether a value is one that an option takes. -/
def accepts (o : OptionSpec) (value : String) : Bool :=
  (o.choices.isEmpty || o.choices.contains value) &&
    (!o.isWhole || (Text.wholeNumber? value).isSome)

/-- Records options in order; asking for help or the version ends the reading. -/
def record (a : Arguments) : List (OptionSpec × Option String) → Except Parse Arguments
  | [] => .ok a
  | (o, value) :: rest =>
    match o.kind, value with
    | .help, _ => .error .help
    | .version, _ => .error .version
    | .flag, _ => record { a with flags := a.flags ++ [o.name] } rest
    | .value, some text =>
      if accepts o text then record { a with values := a.values ++ [(o.name, text)] } rest
      else .error .invalid
    | .value, none => .error .invalid

private def isDashes : String × ArgumentKind → Bool
  | (_, .dashes) => true
  | _ => false

/-- Whether the option that comes last still wants a value. -/
def wantsValue (found : List (OptionSpec × Option String)) : Bool :=
  found.getLast?.any fun (o, value) => o.kind = .value && value.isNone

/-- A positional argument and what follows it. For a command everything after it is its own. -/
def place (g : Grammar) (a : Arguments) (argument : String) (rest : List (String × ArgumentKind)) :
    Arguments × List (String × ArgumentKind) :=
  match g.positional, a.positional with
  | .one _ _, none => ({ a with positional := some argument }, rest.dropWhile isDashes)
  | .command _ _, none =>
    ({ a with positional := some argument, rest := rest.map (·.1) }, [])
  | _, _ => ({ a with unrecognized := true }, rest)

private def readFrom (g : Grammar) (a : Arguments) :
    Nat → List (String × ArgumentKind) → Except Parse Arguments
  | 0, _ => .ok a
  | _ + 1, [] => .ok a
  | fuel + 1, (argument, kind) :: rest =>
    match kind with
    | .ambiguous => .error .invalid
    | .unknown => readFrom g { a with unrecognized := true } fuel rest
    | .positional =>
      let (a, rest) := place g a argument rest
      readFrom g a fuel rest
    | .dashes =>
      match g.positional, rest with
      | .one _ _, _ :: _ =>
        if a.positional.isNone then readFrom g a fuel rest
        else readFrom g { a with unrecognized := true } fuel rest
      | .command _ _, _ :: _ => .error .invalid
      | _, _ => readFrom g { a with unrecognized := true } fuel rest
    | .option o name value =>
      match lettersOf g o name value (argument.length + 1) with
      | none => .error .invalid
      | some found =>
        if wantsValue found then
          match rest with
          | (text, .positional) :: rest => do
            let last := found.getLast?.map fun (o, _) => (o, some text)
            readFrom g (← record a (found.dropLast ++ last.toList)) fuel rest
          | _ => .error .invalid
        else do readFrom g (← record a found) fuel rest

/-- Whether the positional arguments that must be there are. -/
def isComplete (g : Grammar) (a : Arguments) : Bool :=
  match g.positional, a.positional with
  | .one _ _, none => false
  | .command names _, some command => names.any (·.1 == command)
  | _, _ => true

/-- Reads arguments. Those that are not recognized are only refused by whoever reads all of them,
since a command may still end the reading before. -/
def parse (g : Grammar) (arguments : List String) : Parse :=
  let classified := g.classifyAll arguments
  if classified.any fun (_, kind) => kind == .ambiguous then .invalid
  else match readFrom g .none (classified.length + 1) classified with
    | .error parse => parse
    | .ok a => if g.isComplete a then .read a else .invalid

end Grammar
end EmbeddedGraphQL.CommandLine
