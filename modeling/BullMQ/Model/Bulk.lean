import BullMQ.Model.Flow

/-!
# Adding one job or many

`addJob` of the backend runs an add script and throws when the reply is below zero. `addJobs` sends
the same scripts down a pipeline: there the replies arrive later, and what `addJob` would compare
with zero is the pipeline itself.
-/

namespace BullMQ

/-! ### Strings below zero -/

/-- The white space and line ends of ECMAScript. -/
def isSpace (c : Char) : Bool :=
  c.toNat ∈ [0x09, 0x0A, 0x0B, 0x0C, 0x0D, 0x20, 0xA0, 0x1680, 0x2028, 0x2029, 0x202F, 0x205F,
    0x3000, 0xFEFF] || (0x2000 ≤ c.toNat && c.toNat ≤ 0x200A)

/-- The number that decimal digits stand for. -/
def ofDigits (digits : List Char) : ℕ :=
  digits.foldl (fun n c => 10 * n + (c.toNat - '0'.toNat)) 0

/-- `ExponentPart`, or nothing. -/
def readExponent : List Char → Option ℤ
  | [] => some 0
  | c :: cs =>
    if c = 'e' ∨ c = 'E' then
      let (negative, digits) :=
        match cs with
        | '-' :: digits => (true, digits)
        | '+' :: digits => (false, digits)
        | digits => (false, digits)
      if digits ≠ [] ∧ digits.all Char.isDigit then
        some (if negative then -ofDigits digits else ofDigits digits)
      else none
    else none

/-- `StrUnsignedDecimalLiteral`, apart from `Infinity`: its digits as one number and the power of
ten it is to be multiplied by. -/
def readDecimal (cs : List Char) : Option (ℕ × ℤ) :=
  let (whole, rest) := cs.span Char.isDigit
  let (fraction, rest) :=
    match rest with
    | '.' :: rest => rest.span Char.isDigit
    | rest => ([], rest)
  if whole ++ fraction = [] then none
  else (readExponent rest).map fun e => (ofDigits (whole ++ fraction), e - fraction.length)

/-- Whether `m * 10 ^ e` is not rounded to zero: it is more than half of the least positive number
of double precision. -/
def isPositive (m : ℕ) (e : ℤ) : Bool :=
  if 0 ≤ e then 0 < m else 10 ^ e.natAbs < 2 ^ 1075 * m

/-- `text < 0` of ECMAScript, for a string on the left: it is read as a number, and compares as
false if it is none. -/
def isBelowZero (text : String) : Bool :=
  match ((text.toList.dropWhile isSpace).reverse.dropWhile isSpace).reverse with
  | '-' :: cs =>
    cs == "Infinity".toList || (readDecimal cs).elim false fun (m, e) => isPositive m e
  | _ => false

example : isBelowZero "-5.5" ∧ isBelowZero " -1e3" ∧ ¬ isBelowZero "-0.0" ∧
    ¬ isBelowZero "a-1" := by
  decide +kernel

/-! ### addJob and addJobs -/

/-- One entry of a bulk. -/
structure BulkEntry where
  args : AddArgs
  addToWaitingChildren : Bool := false
  deriving DecidableEq, Repr

/-- `addJobToTransaction`: run the script of an entry. -/
def BulkEntry.run (p : String) (e : BulkEntry) (s : Store) : Reply × Store :=
  FlowJobEntry.add ⟨p, e.args, e.addToWaitingChildren⟩ s

/-- `result < 0`. -/
def Reply.isBelowZero : Reply → Bool
  | .code n => n < 0
  | .id jobId => BullMQ.isBelowZero jobId
  | _ => false

/-- What a call of `addJob` makes of the reply: it throws an error of the script, and
`finishedErrors` for a reply below zero. -/
def Reply.outcome (result : Reply) : Except Reply Reply :=
  if result = .error ∨ result.isBelowZero then .error result else .ok result

/-- `addJob`. -/
def addJob (p : String) (e : BulkEntry) (s : Store) : Except Reply Reply × Store :=
  let (result, s) := e.run p s
  (result.outcome, s)

/-- Call `addJob` for one entry after the other. -/
def addEach (p : String) : List BulkEntry → Store → List (Except Reply Reply) × Store
  | [], s => ([], s)
  | e :: es, s =>
    let (outcome, s) := addJob p e s
    let (outcomes, s) := addEach p es s
    (outcome :: outcomes, s)

/-- `pipeline.exec`: the replies to the scripts of all entries. -/
def execPipeline (p : String) : List BulkEntry → Store → List Reply × Store
  | [], s => ([], s)
  | e :: es, s =>
    let (result, s) := e.run p s
    let (results, s) := execPipeline p es s
    (result :: results, s)

/-- `addJobs`. -/
def addJobs (p : String) (entries : List BulkEntry) (s : Store) :
    Except Reply (List Reply) × Store :=
  let (results, s) := execPipeline p entries s
  (if .error ∈ results then .error .error else .ok results, s)

end BullMQ
