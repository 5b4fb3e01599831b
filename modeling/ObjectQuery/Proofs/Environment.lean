import Mathlib.Data.List.Forall2
import ObjectQuery.Settings

/-!
Settings that are read from an environment. The texts that set something are given by a grammar, and the settings are
read exactly if both texts are in it or absent.
-/
namespace ObjectQuery

namespace Settings

/-- A text that sets a switch: one of the words, however its letters are cased. -/
def IsSwitch (value : String) : Bool → Prop
  | true => Text.lowerCase value ∈ yesWords
  | false => Text.lowerCase value ∈ noWords

/-- A decimal number: one digit or more, leading zeros among them, with a plus sign in front or without. -/
inductive Numeral : List Char → Nat → Prop
  | unsigned {digits : List Char} (nonempty : digits ≠ []) (decimal : ∀ c ∈ digits, c.isDigit) :
    Numeral digits (Nat.ofDigitChars 10 digits 0)
  | signed {digits : List Char} (nonempty : digits ≠ []) (decimal : ∀ c ∈ digits, c.isDigit) :
    Numeral ('+' :: digits) (Nat.ofDigitChars 10 digits 0)

/-- A text that sets the limit: a positive number below `2 ^ 64`, with blanks around it or without. -/
def IsLimit (value : String) (n : Nat) : Prop :=
  ∃ before numeral after, value.toList = before ++ numeral ++ after ∧ (∀ c ∈ before, Text.isBlank c) ∧
    (∀ c ∈ after, Text.isBlank c) ∧ Numeral numeral n ∧ 0 < n ∧ n < Nat.pow 2 64

/-- What is set: the default if there is no text, otherwise what the text stands for. -/
inductive Given {α : Type} (stands : String → α → Prop) (default : α) : Option String → α → Prop
  | absent : Given stands default none default
  | present {value : String} {a : α} (h : stands value a) : Given stands default (some value) a

variable {value : String} {b : Bool} {n acc : Nat} {c : Char} {cs : List Char}

theorem switch?_eq_some_iff : switch? value = some b ↔ IsSwitch value b := by
  have hdisjoint : ∀ word ∈ yesWords, word ∉ noWords := by decide
  by_cases hyes : Text.lowerCase value ∈ yesWords
  · cases b <;> simp [switch?, IsSwitch, hyes, hdisjoint _ hyes]
  · cases b <;> simp [switch?, IsSwitch, hyes]

instance : Decidable (IsSwitch value b) :=
  decidable_of_iff _ switch?_eq_some_iff

/-- The lower case of a text, but that some of its sigmas are final ones. -/
def WithFinalSigmas (value word : String) : Prop :=
  List.Forall₂ (fun c d => d = c ∨ c = 'σ' ∧ d = 'ς') (Text.lowerCase value).toList word.toList

theorem WithFinalSigmas.eq {word : String} (h : WithFinalSigmas value word)
    (hplain : 'σ' ∉ (Text.lowerCase value).toList ∨ 'ς' ∉ word.toList) : word = Text.lowerCase value := by
  refine String.toList_injective ?_
  unfold WithFinalSigmas at h
  generalize (Text.lowerCase value).toList = cs, word.toList = ds at h hplain ⊢
  induction h with
  | nil => rfl
  | @cons c d cs ds hcd _ ih =>
    simp only [List.mem_cons, not_or] at hplain
    obtain rfl | ⟨rfl, rfl⟩ := hcd
    · rw [ih (hplain.imp And.right And.right)]
    · exact (hplain.elim (fun h => h.1 rfl) fun h => h.1 rfl).elim

/-- At the end of a word a capital sigma has another lower case than elsewhere. This makes no difference to what is a
switch, for none of the words has a sigma. -/
theorem isSwitch_iff_of_withFinalSigmas {word : String} (h : WithFinalSigmas value word) :
    IsSwitch value b ↔ word ∈ if b then yesWords else noWords := by
  have hwords : ∀ w ∈ yesWords ++ noWords, 'σ' ∉ w.toList ∧ 'ς' ∉ w.toList := by decide
  have hsame : ∀ words ⊆ yesWords ++ noWords, Text.lowerCase value ∈ words ↔ word ∈ words := by
    intro words hsub
    constructor
    · intro hmem
      rwa [h.eq (.inl (hwords _ (hsub hmem)).1)]
    · intro hmem
      rwa [← h.eq (.inr (hwords _ (hsub hmem)).2)]
  cases b with
  | true => exact hsame yesWords (List.subset_append_left ..)
  | false => exact hsame noWords (List.subset_append_right ..)

theorem digitValue?_eq (c : Char) : digitValue? c = if c.isDigit then some (c.toNat - '0'.toNat) else none := by
  simp [digitValue?, Char.isDigit, Char.le_def]

/-- Digits alone are read, as the number that they make after those read so far. -/
theorem digits?_eq_some_iff :
    digits? acc cs = some n ↔ (∀ c ∈ cs, c.isDigit) ∧ Nat.ofDigitChars 10 cs acc = n := by
  induction cs generalizing acc with
  | nil => simp [digits?, Nat.ofDigitChars]
  | cons c cs ih =>
    rw [digits?, digitValue?_eq, Nat.ofDigitChars_cons, List.forall_mem_cons]
    by_cases hc : c.isDigit
    · rw [if_pos hc, Option.bind_some, ih, and_iff_right hc]
    · simp [hc]

theorem number?_of_ne_plus (hne : cs ≠ []) (hplus : ∀ c ∈ cs.head?, c ≠ '+') : number? cs = digits? 0 cs := by
  cases cs with
  | nil => exact absurd rfl hne
  | cons c cs =>
    unfold number?
    split
    · next h => cases h
    · next h =>
      cases h
      exact absurd rfl (hplus _ rfl)
    · next h =>
      cases h
      exact absurd rfl (hplus _ rfl)
    · rfl

theorem number?_plus (hne : cs ≠ []) : number? ('+' :: cs) = digits? 0 cs := by
  cases cs with
  | nil => exact absurd rfl hne
  | cons c cs => rfl

theorem number?_eq_some_iff : number? cs = some n ↔ Numeral cs n := by
  constructor
  · intro h
    unfold number? at h
    split at h
    · cases h
    · cases h
    · next rest hrest =>
      obtain ⟨hdecimal, rfl⟩ := digits?_eq_some_iff.mp h
      exact .signed (fun hnil => hrest (by rw [hnil])) hdecimal
    · next rest hnil _ _ =>
      obtain ⟨hdecimal, rfl⟩ := digits?_eq_some_iff.mp h
      exact .unsigned hnil hdecimal
  · intro h
    cases h with
    | unsigned nonempty decimal =>
      rw [number?_of_ne_plus nonempty, digits?_eq_some_iff]
      · exact ⟨decimal, rfl⟩
      · rintro c hc rfl
        exact absurd (decimal '+' (List.mem_of_mem_head? hc)) (by decide)
    | signed nonempty decimal =>
      rw [number?_plus nonempty, digits?_eq_some_iff]
      exact ⟨decimal, rfl⟩

theorem isBlank_eq_false_of_isDigit (h : c.isDigit) : Text.isBlank c = false := by
  have hbounds : 48 ≤ c.toNat ∧ c.toNat ≤ 57 := by
    simpa [Char.isDigit, UInt32.le_iff_toNat_le] using h
  simp only [Text.isBlank, Bool.or_eq_false_iff, Bool.and_eq_false_iff, decide_eq_false_iff_not]
  omega

theorem Numeral.isBlank_eq_false (h : Numeral cs n) (hc : c ∈ cs) : Text.isBlank c = false := by
  cases h with
  | unsigned _ decimal => exact isBlank_eq_false_of_isDigit (decimal c hc)
  | signed _ decimal =>
    rcases List.mem_cons.mp hc with rfl | hc
    · decide
    · exact isBlank_eq_false_of_isDigit (decimal c hc)

/-- No blank is part of a number, so what is left between the blanks of a text that sets the limit is the number. -/
theorem limit?_eq_some_iff : limit? value = some n ↔ IsLimit value n := by
  rw [limit?, Option.filter_eq_some_iff, number?_eq_some_iff, decide_eq_true_iff]
  constructor
  · rintro ⟨hnumeral, hpositive, hbelow⟩
    obtain ⟨before, after, hvalue, hbefore, hafter⟩ := Text.eq_append_trim value.toList
    exact ⟨before, _, after, hvalue, hbefore, hafter, hnumeral, hpositive, hbelow⟩
  · rintro ⟨before, numeral, after, hvalue, hbefore, hafter, hnumeral, hpositive, hbelow⟩
    have htrim : Text.trim value.toList = numeral := by
      rw [hvalue]
      refine Text.trim_append hbefore hafter (fun c hc => ?_) fun c hc => ?_
      · exact hnumeral.isBlank_eq_false (List.mem_of_mem_head? hc)
      · exact hnumeral.isBlank_eq_false (List.mem_of_mem_getLast? hc)
    rw [htrim]
    exact ⟨hnumeral, hpositive, hbelow⟩

instance : Decidable (IsLimit value n) :=
  decidable_of_iff _ limit?_eq_some_iff

end Settings

namespace Environment

open Settings

variable {α : Type} {env : Environment} {read? : String → Option α} {invalid : String → String → SettingsError}
  {stands : String → α → Prop} {key : String} {default a : α} {e : SettingsError}

theorem setting_eq_ok_iff (hread : ∀ value a, read? value = some a ↔ stands value a) :
    env.setting read? invalid key default = .ok a ↔ Given stands default (env.get? key) a := by
  unfold setting
  cases env.get? key with
  | none =>
    constructor
    · rintro ⟨⟩
      exact .absent
    · rintro ⟨⟩
      rfl
  | some value =>
    dsimp only
    constructor
    · intro h
      split at h
      · next hvalue =>
        cases h
        exact .present ((hread value a).mp hvalue)
      · cases h
    · intro h
      cases h with
      | present h => rw [(hread value a).mpr h]

theorem setting_eq_error_iff (hread : ∀ value a, read? value = some a ↔ stands value a) :
    env.setting read? invalid key default = .error e ↔
      ∃ value, env.get? key = some value ∧ (∀ a, ¬ stands value a) ∧ e = invalid key value := by
  unfold setting
  cases env.get? key with
  | none => simp
  | some value =>
    simp only [← hread, ← Option.eq_none_iff_forall_ne_some, Option.some.injEq, exists_eq_left']
    cases read? value <;> simp [eq_comm]

theorem enabled_eq_ok_iff {default b : Bool} :
    env.enabled key default = .ok b ↔ Given IsSwitch default (env.get? key) b :=
  setting_eq_ok_iff fun _ _ => switch?_eq_some_iff

theorem enabled_eq_error_iff {default : Bool} : env.enabled key default = .error e ↔
    ∃ value, env.get? key = some value ∧ (∀ b, ¬ IsSwitch value b) ∧ e = .invalidBoolean key value :=
  setting_eq_error_iff fun _ _ => switch?_eq_some_iff

theorem limit_eq_ok_iff {default n : Nat} :
    env.limit key default = .ok n ↔ Given IsLimit default (env.get? key) n :=
  setting_eq_ok_iff fun _ _ => limit?_eq_some_iff

theorem limit_eq_error_iff {default : Nat} : env.limit key default = .error e ↔
    ∃ value, env.get? key = some value ∧ (∀ n, ¬ IsLimit value n) ∧ e = .invalidNumber key value :=
  setting_eq_error_iff fun _ _ => limit?_eq_some_iff

end Environment

namespace Settings

variable {env : Environment} {settings : Settings} {e : SettingsError}

theorem ofEnvironment_eq_ok_iff : ofEnvironment env = .ok settings ↔
    env.enabled parameterizeKey false = .ok settings.parameterizeConstants ∧
      env.limit maxSetterDepthKey 16 = .ok settings.maxSetterDepth := by
  obtain ⟨parameterize, depth⟩ := settings
  unfold ofEnvironment
  cases env.enabled parameterizeKey false with
  | error => simp [bind, Except.bind]
  | ok b => cases env.limit maxSetterDepthKey 16 <;> simp [bind, Except.bind]

/-- The switch comes first. -/
theorem ofEnvironment_eq_error_iff : ofEnvironment env = .error e ↔
    env.enabled parameterizeKey false = .error e ∨
      (∃ b, env.enabled parameterizeKey false = .ok b) ∧ env.limit maxSetterDepthKey 16 = .error e := by
  unfold ofEnvironment
  cases env.enabled parameterizeKey false with
  | error => simp [bind, Except.bind]
  | ok b => cases env.limit maxSetterDepthKey 16 <;> simp [bind, Except.bind]

theorem Given.maxSetterDepth_pos {text : Option String} {n : Nat} (h : Given IsLimit 16 text n) : 0 < n := by
  cases h with
  | absent => decide
  | present h =>
    obtain ⟨_, _, _, _, _, _, _, hpositive, _⟩ := h
    exact hpositive

/-- The environment is read by a grammar. There are settings exactly if both texts are in the grammar or absent, and
then they are what the texts stand for; the limit is never zero. Otherwise the error has the text as it is given: that
of the switch if it sets nothing, whatever the limit is, and else that of the limit. -/
theorem ofEnvironment_exact (env : Environment) :
    (∀ settings, ofEnvironment env = .ok settings ↔
      Given IsSwitch false (env.get? parameterizeKey) settings.parameterizeConstants ∧
        Given IsLimit 16 (env.get? maxSetterDepthKey) settings.maxSetterDepth) ∧
    (∀ e, ofEnvironment env = .error e ↔
      (∃ value, env.get? parameterizeKey = some value ∧ (∀ b, ¬ IsSwitch value b) ∧
        e = .invalidBoolean parameterizeKey value) ∨
      (∃ b, Given IsSwitch false (env.get? parameterizeKey) b) ∧
        ∃ value, env.get? maxSetterDepthKey = some value ∧ (∀ n, ¬ IsLimit value n) ∧
          e = .invalidNumber maxSetterDepthKey value) ∧
    ∀ settings, ofEnvironment env = .ok settings → 0 < settings.maxSetterDepth := by
  have hok : ∀ settings, ofEnvironment env = .ok settings ↔
      Given IsSwitch false (env.get? parameterizeKey) settings.parameterizeConstants ∧
        Given IsLimit 16 (env.get? maxSetterDepthKey) settings.maxSetterDepth := fun settings => by
    rw [ofEnvironment_eq_ok_iff, Environment.enabled_eq_ok_iff, Environment.limit_eq_ok_iff]
  refine ⟨hok, fun e => ?_, fun settings h => ((hok settings).mp h).2.maxSetterDepth_pos⟩
  rw [ofEnvironment_eq_error_iff, Environment.enabled_eq_error_iff, Environment.limit_eq_error_iff]
  simp only [Environment.enabled_eq_ok_iff]

/-- The largest limit there is, written with more than it takes. -/
def largestDepth : Environment where
  get? key :=
    if key = parameterizeKey then some "EnaBLed"
    else if key = maxSetterDepthKey then some "\t+0018446744073709551615 "
    else none

/-- Neither text sets anything. -/
def misspelt : Environment where
  get? key :=
    if key = parameterizeKey then some " yes"
    else if key = maxSetterDepthKey then some "++3"
    else none

theorem ofEnvironment_largestDepth :
    ofEnvironment largestDepth = .ok ⟨true, 18446744073709551615⟩ ∧ 0 < 18446744073709551615 ∧
      ofEnvironment misspelt = .error (.invalidBoolean parameterizeKey " yes") := by
  have hswitch : IsSwitch "EnaBLed" true := by decide
  have hlimit : IsLimit "\t+0018446744073709551615 " 18446744073709551615 := by decide
  have hwrong : ∀ b, ¬ IsSwitch " yes" b := by decide
  have hok := ((ofEnvironment_exact largestDepth).1 ⟨true, _⟩).mpr ⟨.present hswitch, .present hlimit⟩
  refine ⟨hok, (ofEnvironment_exact largestDepth).2.2 _ hok, ?_⟩
  exact ((ofEnvironment_exact misspelt).2.1 _).mpr (.inl ⟨_, rfl, hwrong, rfl⟩)

end Settings
end ObjectQuery
