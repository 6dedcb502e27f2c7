import Mathlib.Data.Int.Notation
import BullMQ.Redis.Scan

/-!
# Pagination of sets and hashes

`paginate` reads a range of positions of a set or a hash with `SSCAN` or `HSCAN`. A call of the
script reads at most five chunks and hands back where it stands, and the loop of the client calls it
until the range is complete or the scan over. What Redis replies to a scan command is a parameter.
-/

namespace BullMQ

open Redis

/-- An element of a set, or a field of a hash with its value. -/
inductive Item where
  | member (m : String)
  | field (name value : String)
  deriving DecidableEq, Repr

/-- The name under which `fetchJobs` looks for a hash. -/
def Item.id : Item → String
  | .member m => m
  | .field name _ => name

/-- An element as it stands in a reply. -/
def Item.raw : Item → List String
  | .member m => [m]
  | .field name value => [name, value]

/-- What is stored under a key, as far as pagination tells it apart. A set or a hash without
elements is not stored at all. -/
inductive Stored where
  | set (members : List String)
  | hash (fields : List (String × String))
  | other

def Stored.items : Stored → List Item
  | .set members => members.map .member
  | .hash fields => fields.map fun f => .field f.1 f.2
  | .other => []

/-- `TYPE`. -/
inductive KeyType where
  | none | set | hash | other
  deriving DecidableEq, Repr

def Stored.type : Stored → KeyType
  | .set members => if members = [] then .none else .set
  | .hash fields => if fields = [] then .none else .hash
  | .other => .other

inductive ScanCommand where
  | sscan | hscan
  deriving DecidableEq, Repr

/-- The elements of a reply: the loop over it goes in steps of one or two. -/
def ScanCommand.elements : ScanCommand → List String → List Item
  | .sscan, m :: members => .member m :: elements .sscan members
  | .hscan, name :: value :: members => .field name value :: elements .hscan members
  | _, _ => []

/-- Where `findPage` stands. -/
structure Page (ρ : Type) where
  cursor : String
  offset : ℕ
  items : List Item
  jobs : List ρ

section Script

variable {ρ : Type} (hgetall : String → ρ) (fetchJobs : Bool) (pageStart pageEnd : ℤ)

/-- The loop over the elements of a chunk that overlaps the page. The flag says whether it has met
the end of the page. -/
def addElements : List Item → Page ρ → Page ρ × Bool
  | [], r => (r, false)
  | m :: members, r =>
    if pageEnd ≤ r.offset then (r, true)
    else if pageStart ≤ r.offset then
      addElements members
        { r with
          offset := r.offset + 1
          items := r.items ++ [m]
          jobs := if fetchJobs then r.jobs ++ [hgetall m.id] else r.jobs }
    else addElements members { r with offset := r.offset + 1 }

/-- The body of the loop of `findPage`. The flag says that it returns. -/
def findPageStep (scan : String → String × List String) (command : ScanCommand) (r : Page ρ) :
    Page ρ × Bool :=
  let (cursor, members) := scan r.cursor
  let members := command.elements members
  let r := { r with cursor }
  if members = [] then (r, true)
  else if (r.offset + members.length : ℤ) < pageStart then
    ({ r with offset := r.offset + members.length }, false)
  else if pageEnd < r.offset then (r, true)
  else addElements hgetall fetchJobs pageStart pageEnd members r

/-- `findPage`, where so many iterations may follow the first one. -/
def findPage (scan : String → String × List String) (command : ScanCommand) :
    ℕ → Page ρ → Page ρ
  | 0, r => (findPageStep hgetall fetchJobs pageStart pageEnd scan command r).1
  | iterations + 1, r =>
    let (r, returned) := findPageStep hgetall fetchJobs pageStart pageEnd scan command r
    if returned ∨ r.cursor = "0" then r else findPage scan command iterations r

/-- `paginate-1.lua`. Returns the page and the number of elements, or an error reply. -/
def Script.paginate (stored : Stored) (scan : String → String × List String)
    (startOffset endOffset : ℤ) (cursor : String) (offset maxIterations : ℕ) :
    Except String (Page ρ × ℕ) :=
  let numItems := stored.items.length
  let endOffset := if endOffset = -1 then (numItems : ℤ) else endOffset
  let pageSize := endOffset - startOffset + 1
  let page command :=
    (findPage hgetall fetchJobs startOffset (startOffset + pageSize) scan command
      (maxIterations - 1) ⟨cursor, offset, [], []⟩, numItems)
  match stored.type with
  | .none => .ok (⟨"0", 0, [], []⟩, 0)
  | .set => .ok (page .sscan)
  | .hash => .ok (page .hscan)
  | .other => .error "Pagination is only supported for sets and hashes."

end Script

/-- The options of `paginate`. -/
structure PaginateOpts where
  start : ℤ
  stop : ℤ
  fetchJobs : Bool := false
  deriving DecidableEq, Repr

/-- An item of the result: a field's value is parsed, or the error of the parser reported. -/
structure ResultItem (V : Type) where
  id : String
  v : Option V := none
  err : Option String := none
  deriving DecidableEq, Repr

/-- The result of `paginate`. -/
structure Paginated (V ρ : Type) where
  cursor : String
  items : List (ResultItem V)
  total : ℕ
  jobs : List ρ

section Client

variable {V ρ : Type}

/-- All elements of one page are of the same kind, so that it does not matter that the source looks
at the first one only. -/
def Item.result (parse : String → Except String V) : Item → ResultItem V
  | .member m => { id := m }
  | .field name value =>
    match parse value with
    | .ok v => { id := name, v := some v }
    | .error message => { id := name, err := some message }

variable (hgetall : String → ρ) (stored : Stored) (scan : String → String × List String)
  (opts : PaginateOpts)

/-- The loop of `RedisQueueBackend.paginate` until the page is complete, with at most the given
number of calls: `none` stands for a loop that goes on. -/
def paginateLoop : ℕ → String → ℕ → List Item → List ρ →
    Option (Except String (String × List Item × ℕ × List ρ))
  | 0, _, _, _, _ => none
  | calls + 1, cursor, offset, page, jobs =>
    match Script.paginate hgetall opts.fetchJobs stored scan (opts.start + page.length) opts.stop
        cursor offset 5 with
    | .error message => some (.error message)
    | .ok (r, total) =>
      let page := page ++ r.items
      let jobs := jobs ++ r.jobs
      -- the page size is infinite where the end is negative
      if r.cursor ≠ "0" ∧ (0 ≤ opts.stop → (page.length : ℤ) < opts.stop - opts.start + 1) then
        paginateLoop calls r.cursor r.offset page jobs
      else some (.ok (r.cursor, page, total, jobs))

/-- `RedisQueueBackend.paginate`. -/
def paginate (parse : String → Except String V) (calls : ℕ) :
    Option (Except String (Paginated V ρ)) :=
  (paginateLoop hgetall stored scan opts calls "0" 0 [] []).map fun outcome =>
    outcome.map fun r => ⟨r.1, r.2.1.map (Item.result parse), r.2.2.1, r.2.2.2⟩

end Client

end BullMQ
