/-!
Names joined by dots, and their parts. Joining undoes splitting.
-/
namespace ObjectQuery.Dotted

def join : List String → String
  | [] => ""
  | [s] => s
  | s :: rest => s ++ "." ++ join rest

/-- The parts between the dots; there is always at least one. -/
def parts : List Char → List (List Char)
  | [] => [[]]
  | c :: cs =>
    if c = '.' then [] :: parts cs
    else
      match parts cs with
      | [] => [[c]]
      | p :: ps => (c :: p) :: ps

def split (s : String) : List String :=
  (parts s.toList).map String.ofList

/-- Does the name start with the given one and a dot? -/
def isWithin (name outer : String) : Bool :=
  (outer.toList ++ ['.']).isPrefixOf name.toList

/-- What follows the outer name and its dot. -/
def relativeTo (name outer : String) : String :=
  String.ofList (name.toList.drop (outer.toList.length + 1))

theorem parts_ne_nil (cs : List Char) : parts cs ≠ [] := by
  cases cs with
  | nil => simp [parts]
  | cons c cs =>
    by_cases h : c = '.'
    · simp [parts, h]
    · simp only [parts, if_neg h]
      cases parts cs <;> simp

theorem toList_join_cons_cons (s t : String) (rest : List String) :
    (join (s :: t :: rest)).toList = s.toList ++ '.' :: (join (t :: rest)).toList := by
  simp [join]

theorem toList_join_parts (cs : List Char) :
    (join ((parts cs).map String.ofList)).toList = cs := by
  induction cs with
  | nil => simp [parts, join]
  | cons c cs ih =>
    cases hp : parts cs with
    | nil => exact absurd hp (parts_ne_nil cs)
    | cons p ps =>
      rw [hp] at ih
      by_cases hc : c = '.'
      · rw [parts, if_pos hc, hp, List.map_cons, List.map_cons, toList_join_cons_cons,
          ← List.map_cons, ih]
        simp [hc]
      · rw [parts, if_neg hc, hp]
        cases ps with
        | nil => simpa [join] using ih
        | cons q qs =>
          simp only [List.map_cons, toList_join_cons_cons] at ih ⊢
          simp [← ih]

theorem join_split (s : String) : join (split s) = s :=
  String.toList_injective (toList_join_parts s.toList)

theorem parts_of_not_mem {cs : List Char} (h : '.' ∉ cs) : parts cs = [cs] := by
  induction cs with
  | nil => rfl
  | cons c cs ih =>
    rw [List.mem_cons, not_or] at h
    rw [parts, if_neg (fun hc => h.1 hc.symm), ih h.2]

theorem parts_append_dot {cs : List Char} (h : '.' ∉ cs) (rest : List Char) :
    parts (cs ++ '.' :: rest) = cs :: parts rest := by
  induction cs with
  | nil => simp [parts]
  | cons c cs ih =>
    rw [List.mem_cons, not_or] at h
    rw [List.cons_append, parts, if_neg (fun hc => h.1 hc.symm), ih h.2]

end ObjectQuery.Dotted
