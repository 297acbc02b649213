/-! # Words of a command line

Options are told from other words by their dashes. A long option may carry its value behind an
equals sign, a short one right behind its letter; otherwise the value is the next word, whatever it
looks like. Two dashes alone end the options.
-/
namespace FlatGrammar

structure OptionSpec where
  name : String
  letter : Option Char := none
  takesValue : Bool := false
  deriving DecidableEq, Repr

/-- The options given, each with its value or an empty one, and the other words. -/
structure Words where
  options : List (String × String) := []
  others : List String := []
  deriving DecidableEq, Repr

namespace Words

def addOption (name value : String) (w : Words) : Words :=
  { w with options := (name, value) :: w.options }

def addOther (word : String) (w : Words) : Words := { w with others := word :: w.others }

def has (name : String) (w : Words) : Bool := w.options.any (·.1 == name)

def value? (name : String) (w : Words) : Option String :=
  (w.options.reverse.find? (·.1 == name)).map Prod.snd

end Words

def isOptionWord (word : List Char) : Bool := word.head? == some '-' && 1 < word.length

/-- The option of a word, with the value that the word itself carries. -/
def optionOf? (specs : List OptionSpec) : List Char → Option (OptionSpec × Option String)
  | '-' :: '-' :: rest =>
    let name := rest.takeWhile (· != '=')
    match specs.find? (·.name == String.ofList name), rest.dropWhile (· != '=') with
    | some spec, [] => some (spec, none)
    | some spec, _ :: value => if spec.takesValue then some (spec, some (String.ofList value)) else none
    | none, _ => none
  | '-' :: letter :: rest =>
    match specs.find? (·.letter == some letter), rest with
    | some spec, [] => some (spec, none)
    | some spec, _ => if spec.takesValue then some (spec, some (String.ofList rest)) else none
    | none, _ => none
  | _ => none

/-- Reads the words of a command line, `none` if an option is unknown or lacks its value. The option
before may still wait for its value. Reading stops at the first other word unless options may follow
it. -/
def readWords (specs : List OptionSpec) (optionsFollow : Bool) (waiting : Option String) :
    List String → Option Words
  | [] => if waiting.isSome then none else some {}
  | word :: rest =>
    match waiting with
    | some name => (readWords specs optionsFollow none rest).map (·.addOption name word)
    | none =>
      if word == "--" then some { others := rest }
      else if isOptionWord word.toList then
        match optionOf? specs word.toList with
        | none => none
        | some (spec, some value) =>
          (readWords specs optionsFollow none rest).map (·.addOption spec.name value)
        | some (spec, none) =>
          if spec.takesValue then readWords specs optionsFollow (some spec.name) rest
          else (readWords specs optionsFollow none rest).map (·.addOption spec.name "")
      else if optionsFollow then (readWords specs optionsFollow none rest).map (·.addOther word)
      else some { others := word :: rest }

end FlatGrammar
