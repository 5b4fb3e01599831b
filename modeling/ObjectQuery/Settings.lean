import ObjectQuery.Text.Blank
import ObjectQuery.Text.LowerCase

/-!
Settings of the compiler, and how they are read from an environment. A switch is one of six words for yes
or six for no, in any case; the nesting limit is a positive decimal number below `2 ^ 64`, with an
optional plus sign and blanks around it.
-/
namespace ObjectQuery

structure Settings where
  parameterizeConstants : Bool := false
  maxSetterDepth : Nat := 16
deriving DecidableEq, Inhabited

structure Environment where
  get? : String → Option String

inductive SettingsError where
  | invalidBoolean (key value : String)
  | invalidNumber (key value : String)
deriving DecidableEq, Inhabited

namespace Settings

def yesWords : List String :=
  ["true", "1", "yes", "on", "enabled", "enable"]

def noWords : List String :=
  ["false", "0", "no", "off", "disabled", "disable"]

def switch? (value : String) : Option Bool :=
  let word := Text.lowerCase value
  if word ∈ yesWords then some true
  else if word ∈ noWords then some false
  else none

def digitValue? (c : Char) : Option Nat :=
  if '0' ≤ c ∧ c ≤ '9' then some (c.toNat - '0'.toNat) else none

/-- The number that the digits after `acc` make; nothing but digits may follow. -/
def digits? (acc : Nat) : List Char → Option Nat
  | [] => some acc
  | c :: cs => (digitValue? c).bind fun d => digits? (10 * acc + d) cs

/-- At least one decimal digit, after a plus sign or without it. -/
def number? : List Char → Option Nat
  | [] => none
  | ['+'] => none
  | '+' :: cs => digits? 0 cs
  | cs => digits? 0 cs

def limit? (value : String) : Option Nat :=
  (number? (Text.trim value.toList)).filter fun n => 0 < n ∧ n < Nat.pow 2 64

def parameterizeKey : String := "EXO_OQL_PARAMETERIZE_CONSTANTS"

def maxSetterDepthKey : String := "EXO_OQL_MAX_SETTER_DEPTH"

end Settings

/-- What is set under the key: the default when the key is absent. -/
def Environment.setting {α : Type} (env : Environment) (read? : String → Option α)
    (invalid : String → String → SettingsError) (key : String) (default : α) : Except SettingsError α :=
  match env.get? key with
  | none => .ok default
  | some value =>
    match read? value with
    | some a => .ok a
    | none => .error (invalid key value)

def Environment.enabled (env : Environment) (key : String) (default : Bool) : Except SettingsError Bool :=
  env.setting Settings.switch? .invalidBoolean key default

def Environment.limit (env : Environment) (key : String) (default : Nat) : Except SettingsError Nat :=
  env.setting Settings.limit? .invalidNumber key default

def Settings.ofEnvironment (env : Environment) : Except SettingsError Settings := do
  let parameterize ← env.enabled parameterizeKey false
  let depth ← env.limit maxSetterDepthKey 16
  .ok ⟨parameterize, depth⟩

def SettingsError.message : SettingsError → String
  | .invalidBoolean key value =>
    "Invalid value for " ++ key ++ ": " ++ value ++ ". Expected "
      ++ ", ".intercalate Settings.yesWords ++ " OR " ++ ", ".intercalate Settings.noWords
  | .invalidNumber key value =>
    "Invalid value for " ++ key ++ ": " ++ value ++ ". Expected a positive integer"

end ObjectQuery
