import ExactAlgebra.Expr.Print
import ExactAlgebra.Text.Blank
import ExactAlgebra.Text.Quoted

/-!
# Command-line arguments

An argument is an option or an operand.  Short options may share one dash, and their value may
follow them at once; long options may be cut short and may carry their value after an equals sign.
An equals sign may also stand after the first short option.  An attached value that is a double dash
counts as no value at all.  After a double dash everything is an operand, and so is what looks like
a negative number or holds a space.  All operands stand together.

* `Word.classify`: what a single argument is.
* `Options.ofArguments`: the options and operands of a command line.
-/

namespace ExactAlgebra.Console

inductive Stop where
  /-- The user asked for help. -/
  | help
  /-- The arguments make no sense. -/
  | usage
  deriving DecidableEq

/-- The options without a value. -/
inductive Flag where
  | help
  | evaluate
  | simplify
  | verbose
  deriving DecidableEq

/-- The options with a value. -/
inductive Setting where
  | binding
  | style
  deriving DecidableEq

inductive Switch where
  | flag (f : Flag)
  | setting (s : Setting)
  deriving DecidableEq

def Switch.ofLetter? : Char → Option Switch
  | 'h' => some (.flag .help)
  | 'e' => some (.flag .evaluate)
  | 'l' => some (.setting .binding)
  | 's' => some (.flag .simplify)
  | 'v' => some (.flag .verbose)
  | _ => none

def Switch.names : List (List Char × Switch) :=
  [("help".toList, .flag .help), ("evaluate".toList, .flag .evaluate),
    ("let".toList, .setting .binding), ("simplify".toList, .flag .simplify),
    ("style".toList, .setting .style), ("verbose".toList, .flag .verbose)]

/-- The long options that a name may mean: the one of that very name, or else all whose names begin
with it. -/
def Switch.candidates (name : List Char) : List Switch :=
  match names.find? (·.1 == name) with
  | some (_, s) => [s]
  | none => (names.filter fun entry => name.isPrefixOf entry.1).map Prod.snd

/-! ## Single arguments -/

/-- Where the value of an option stands: attached to the option, or in the next argument.  Nothing
is the value that an attached double dash leaves. -/
inductive Attachment where
  | attached (value : Option String)
  | next

def Attachment.ofChars (text : List Char) : Attachment :=
  .attached (if text = ['-', '-'] then none else some (String.ofList text))

/-- What an argument is.  An option word carries out some flags and may end with an option that
takes a value. -/
inductive Word where
  | operand (text : String)
  | separator
  | option (flags : List Flag) (last : Option (Setting × Attachment))
  | unknown
  | faulty

namespace Word

/-- The short options that share one dash, given the flags before, an option and the text after it.
A flag must be followed by another option. -/
def cluster (flags : List Flag) : Switch → List Char → Word
  | .setting s, text => .option flags (some (s, .ofChars text))
  | .flag _, [] => .faulty
  | .flag f, c :: text =>
    match Switch.ofLetter? c, text with
    | none, _ => .faulty
    | some (.flag g), [] => .option (flags ++ [f, g]) none
    | some (.setting s), [] => .option (flags ++ [f]) (some (s, .next))
    | some next, text => cluster (flags ++ [f]) next text

def ofSwitch (s : Switch) (value : Option (List Char)) : Word :=
  match s, value with
  | .flag f, none => .option [f] none
  | .flag _, some _ => .faulty
  | .setting s, none => .option [] (some (s, .next))
  | .setting s, some text => .option [] (some (s, .ofChars text))

/-- The text is a minus with digits behind it, with a decimal point before the last of them if
any. -/
def isNegativeNumber (text : List Char) : Bool :=
  let text := if text.getLast? == some '\n' then text.dropLast else text
  let isDigit (c : Char) := (Text.decimalDigit? c).isSome
  match text with
  | '-' :: number =>
    match number.dropWhile isDigit with
    | [] => !number.isEmpty
    | '.' :: fraction => !fraction.isEmpty && fraction.all isDigit
    | _ => false
  | _ => false

/-- An argument that begins with a dash and is no known option. -/
def ofStranger (text : List Char) : Word :=
  if isNegativeNumber text || text.contains ' ' then .operand (String.ofList text) else .unknown

/-- What a single argument before the double dash is. -/
def classify (text : String) : Except Stop Word :=
  match text.toList with
  | ['-', '-'] => .ok .separator
  | '-' :: '-' :: body =>
    let name := body.takeWhile (· != '=')
    let value :=
      match body.dropWhile (· != '=') with
      | _ :: value => some value
      | [] => none
    match Switch.candidates name with
    | [s] => .ok (ofSwitch s value)
    | [] => .ok (ofStranger ('-' :: '-' :: body))
    | _ => .error .usage
  | '-' :: c :: text =>
    match Switch.ofLetter? c with
    | none => .ok (ofStranger ('-' :: c :: text))
    | some s =>
      match text with
      | [] => .ok (ofSwitch s none)
      | '=' :: value => .ok (cluster [] s value)
      | text => .ok (cluster [] s text)
  | _ => .ok (.operand text)

def classifyAll : List String → Except Stop (List Word)
  | [] => .ok []
  | "--" :: rest => .ok (.separator :: rest.map .operand)
  | text :: rest => do return (← classify text) :: (← classifyAll rest)

end Word

/-! ## Command lines -/

/-- The name and the value of a variable, each without blanks around it. -/
def binding? (text : String) : Option (String × String) :=
  let name := Text.trim (text.toList.takeWhile (· != '='))
  match text.toList.dropWhile (· != '=') with
  | _ :: value =>
    let value := Text.trim value
    if name.isEmpty || value.isEmpty then none
    else some (String.ofList name, String.ofList value)
  | [] => none

def illegalBinding (text : String) : String := "Expected NAME=VALUE, not " ++ Text.quoted text

structure Options where
  operands : List String
  bindings : List (Option (String × String))
  evaluate : Bool
  simplify : Bool
  style : Option String
  verbosity : Nat

namespace Options

def default : Options := ⟨[], [], false, false, none, 0⟩

def setFlag (o : Options) : Flag → Except Stop Options
  | .help => .error .help
  | .evaluate => .ok { o with evaluate := true }
  | .simplify => .ok { o with simplify := true }
  | .verbose => .ok { o with verbosity := o.verbosity + 1 }

def setValue (o : Options) (s : Setting) (value : Option String) : Except Stop Options :=
  match s, value with
  | .binding, none => .ok { o with bindings := o.bindings ++ [none] }
  | .binding, some value =>
    match binding? value with
    | some pair => .ok { o with bindings := o.bindings ++ [some pair] }
    | none => .error .usage
  | .style, none => .ok { o with style := none }
  | .style, some value =>
    if Style.names.any (·.1 == value) then .ok { o with style := some value } else .error .usage

/-- Where the operands stand: not yet met, being met, or all behind. -/
inductive Phase where
  | before
  | within
  | behind
  deriving DecidableEq

/-- What is read so far; `stray` tells of an argument that has no place. -/
structure Reader where
  options : Options
  phase : Phase
  stray : Bool

def Reader.leave (r : Reader) : Phase := if r.phase = .within then .behind else r.phase

/-- Reads an operand, or a separator, which stands for none. -/
def Reader.operand (r : Reader) (texts : List String) : Reader :=
  if r.phase = .behind then { r with stray := true }
  else
    { r with
      options := { r.options with operands := r.options.operands ++ texts }, phase := .within }

def Reader.read (r : Reader) : List Word → Except Stop Reader
  | [] => .ok r
  | .operand text :: words => (r.operand [text]).read words
  | .separator :: words => (r.operand []).read words
  | .faulty :: _ => .error .usage
  | .unknown :: words => Reader.read { r with phase := r.leave, stray := true } words
  | .option flags none :: words => do
    let options ← flags.foldlM setFlag r.options
    Reader.read { r with options, phase := r.leave } words
  | .option flags (some (s, .attached value)) :: words => do
    let options ← (← flags.foldlM setFlag r.options).setValue s value
    Reader.read { r with options, phase := r.leave } words
  | .option flags (some (s, .next)) :: .operand value :: words => do
    let options ← (← flags.foldlM setFlag r.options).setValue s (some value)
    Reader.read { r with options, phase := r.leave } words
  | .option _ (some (_, .next)) :: _ => .error .usage

def ofArguments (arguments : List String) : Except Stop Options := do
  let words ← Word.classifyAll arguments
  let r ← Reader.read ⟨.default, .before, false⟩ words
  if r.stray then .error .usage else .ok r.options

end Options

end ExactAlgebra.Console
