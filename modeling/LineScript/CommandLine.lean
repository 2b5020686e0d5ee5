import LineScript.Machine.Run
import LineScript.Text.Blank

/-!
# The command line

One script, given as an argument or as the path of a file, and any number of properties.  Options
and the script may come in any order; after `--` every argument is a script.
-/

namespace LineScript.CommandLine

structure Arguments where
  file : Option String := none
  script : Option String := none
  /-- Properties in the order in which they were first set. -/
  properties : List (String × String) := []
  deriving DecidableEq, Repr

inductive Source where
  | file (path : String)
  | text (script : String)
  deriving DecidableEq, Repr

structure Invocation where
  source : Source
  properties : List (String × String)
  deriving DecidableEq, Repr

def setProperty (key value : String) : List (String × String) → List (String × String)
  | [] => [(key, value)]
  | (k, v) :: rest =>
      if k = key then (key, value) :: rest else (k, v) :: setProperty key value rest

def readProperty? (cs : List Char) : Option (String × String) :=
  match cs.dropWhile (· ≠ '=') with
  | [] => none
  | _ :: value =>
      some (String.ofList (Text.trimChars (cs.takeWhile (· ≠ '='))), String.ofList value)

namespace Arguments

def withFile (a : Arguments) (path : List Char) : Option Arguments :=
  if a.file.isSome || path.isEmpty then none
  else some { a with file := some (String.ofList path) }

def withProperty (a : Arguments) (definition : List Char) : Option Arguments :=
  (readProperty? definition).map fun (key, value) =>
    { a with properties := setProperty key value a.properties }

def withScript (a : Arguments) (script : String) : Option Arguments :=
  if a.script.isSome then none else some { a with script := some script }

end Arguments

inductive Flag where
  | file
  | property
  deriving DecidableEq, Repr

def Flag.apply (flag : Flag) (a : Arguments) (value : List Char) : Option Arguments :=
  match flag with
  | .file => a.withFile value
  | .property => a.withProperty value

def attachedValue : List Char → List Char
  | '=' :: value => value
  | value => value

inductive Shape where
  /-- The mark that ends the options. -/
  | endOfOptions
  /-- An option whose value is the next argument. -/
  | option (flag : Flag)
  /-- An option together with its value. -/
  | optionWith (flag : Flag) (value : List Char)
  | unknown
  | plain
  deriving DecidableEq, Repr

def longShape (name : List Char) : Shape :=
  let option := name.takeWhile (· ≠ '=')
  if option = "file".toList then
    match name.dropWhile (· ≠ '=') with
    | [] => .option .file
    | _ :: value => .optionWith .file value
  else .unknown

def shortShape (flag : Char) (rest : List Char) : Shape :=
  let shape (f : Flag) : Shape :=
    if rest.isEmpty then .option f else .optionWith f (attachedValue rest)
  if flag = 'f' then shape .file
  else if flag = 'D' then shape .property
  else .unknown

def shapeOf (arg : String) : Shape :=
  match arg.toList with
  | ['-', '-'] => .endOfOptions
  | '-' :: '-' :: name => longShape name
  | '-' :: flag :: rest => shortShape flag rest
  | _ => .plain

def readScripts (a : Arguments) : List String → Option Arguments
  | [] => some a
  | arg :: rest => (a.withScript arg).bind fun a => readScripts a rest

def readArguments (a : Arguments) : List String → Option Arguments
  | [] => some a
  | arg :: rest =>
      match shapeOf arg with
      | .endOfOptions => readScripts a rest
      | .optionWith flag value => (flag.apply a value).bind fun a => readArguments a rest
      | .option flag =>
          match rest with
          | [] => none
          | value :: rest =>
              if shapeOf value = .plain then
                (flag.apply a value.toList).bind fun a => readArguments a rest
              else none
      | .unknown => none
      | .plain => (a.withScript arg).bind fun a => readArguments a rest

def parse? (args : List String) : Option Invocation :=
  (readArguments {} args).bind fun a =>
    match a.file, a.script with
    | some path, none => some { source := .file path, properties := a.properties }
    | none, some script => some { source := .text script, properties := a.properties }
    | _, _ => none

/-!
## Results
-/

structure Ending where
  exit : Nat
  stdout : String := ""
  stderr : String := ""
  deriving DecidableEq, Repr

def misuse : Ending :=
  { exit := 2 }

def unreadable (path reason : String) : Ending :=
  { exit := 1, stderr := "Failed to read the input file '" ++ path ++ "': " ++ reason ++ "\n" }

def ended (stdout : String) (stop : Option Stop) : Ending :=
  match stop with
  | none => { exit := 0, stdout }
  | some (.error e) => { exit := 1, stdout, stderr := e.message ++ "\n" }
  | some (.fault _) => { exit := 101, stdout }

def failedToLoad (e : LoadError) : Ending :=
  { exit := 1, stderr := e.message ++ "\n" }

def runSource (fuel : Nat) (script : String) (properties : List (String × String)) : Ending :=
  match runScript fuel script { properties } with
  | .error e => failedToLoad e
  | .ok (m, stop) => ended m.sink.text stop

/-- The whole program, given how files are read. -/
def execute (fuel : Nat) (readFile : String → Except String String) (args : List String) :
    Ending :=
  match parse? args with
  | none => misuse
  | some invocation =>
      match invocation.source with
      | .text script => runSource fuel script invocation.properties
      | .file path =>
          match readFile path with
          | .error reason => unreadable path reason
          | .ok script => runSource fuel script invocation.properties

end LineScript.CommandLine
