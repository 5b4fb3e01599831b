import ObjectQuery.Binary64

/-!
The shortest decimal that reads back as a given number. A finite number is `m * 2 ^ e`; the reals that
round to it form an interval, closed exactly when `m` is even. On the grid of multiples of `10 ^ p`
only the two neighbours of the number need a test: the coarsest grid with one of them in the interval
gives the digits, and of two neighbours the nearer one, the upper one at a tie.
-/
namespace ObjectQuery.Binary64

def decode (x : Binary64) : Nat × Int :=
  if x.biasedExponent = 0 then (x.fraction, -1074)
  else (x.fraction + Nat.pow 2 52, (x.biasedExponent : Int) - 1075)

structure Interval where
  low : Nat
  value : Nat
  high : Nat
  denominator : Nat
  closed : Bool

/-- Below a power of two the next smaller number is only half as far away. -/
def interval (x : Binary64) : Interval :=
  let (m, e) := x.decode
  let narrow := x.fraction = 0 && x.biasedExponent > 1
  let num := Nat.pow 2 e.toNat
  { low := (4 * m - if narrow then 1 else 2) * num
    value := 4 * m * num
    high := (4 * m + 2) * num
    denominator := 4 * Nat.pow 2 (-e).toNat
    closed := m % 2 = 0 }

def Interval.contains (i : Interval) (k : Nat) (p : Int) : Bool :=
  let lhs := k * Nat.pow 10 p.toNat * i.denominator
  let scale := Nat.pow 10 (-p).toNat
  if i.closed then i.low * scale ≤ lhs && lhs ≤ i.high * scale
  else i.low * scale < lhs && lhs < i.high * scale

/-- The neighbour of the number on the grid of `10 ^ p` that reads back, the nearer one of two. -/
def Interval.onGrid? (i : Interval) (p : Int) : Option Nat :=
  let numerator := i.value * Nat.pow 10 (-p).toNat
  let unit := i.denominator * Nat.pow 10 p.toNat
  let below := numerator / unit
  let nearer := if 2 * (numerator % unit) < unit then below else below + 1
  let farther := if 2 * (numerator % unit) < unit then below + 1 else below
  if nearer ≠ 0 && i.contains nearer p then some nearer
  else if farther ≠ 0 && i.contains farther p then some farther
  else none

def Interval.coarsest (i : Interval) : Nat → Int → Nat × Int
  | 0, p => (i.value / i.denominator, p)
  | fuel + 1, p =>
    match i.onGrid? p with
    | some k => (k, p)
    | none => i.coarsest fuel (p - 1)

/-- Digits and decimal exponent of the shortest decimal `digits * 10 ^ exponent` that reads back as the
absolute value of a finite number other than zero. -/
def shortest (x : Binary64) : Nat × Int :=
  x.interval.coarsest 700 309

end ObjectQuery.Binary64
