import Mathlib.Logic.Function.Basic
import PgFort.Plugins
import PgFort.HeldDeque

namespace PgFort.PersistentDeque

open PgFort.Framing
open PgFort.Conn
open PgFort.Plugins
open PgFort.HeldDeque

variable {δ : Type}

structure Row (δ : Type) where
  pos : Int
  data : δ
  locker : Option Nat
  deriving DecidableEq, Repr

/-- The exceptions that the two handlers of each function are for, with `what()`. -/
inductive Failure where
  | sqlError (what : Bytes)
  | exception (what : Bytes)
  deriving DecidableEq, Repr

/-- What the code takes from the JSON library, from libpqxx and from PostgreSQL. -/
structure Library (δ : Type) where
  /-- `__FILE__`. -/
  file : Bytes
  table : Bytes
  /-- `dump`, which throws for a string that is not UTF-8. -/
  dump : δ → Option Bytes
  /-- What a `JSONB` column makes of a text, as `json::parse` reads the column. -/
  jsonb : Bytes → Option δ
  jsonb_dump : ∀ d text d', dump d = some text → jsonb text = some d' → d' = d
  /-- What PostgreSQL makes of any statement other than an `INSERT` with one constant. -/
  other : Bytes → List (Row δ) → Option (List (Row δ))
  invalidUtf8 : Bytes
  usageError : Bytes
  unexpectedRows : Bytes
  refused : Bytes → Bytes
  aborted : Bytes

/-- What happens to a function's statement and its commit: the exception, if it fails. An `INSERT`
may find that numbers of the sequence have been passed over. -/
structure Io where
  refusal : Option Failure
  commit : Option Failure
  skipped : Nat
  deriving DecidableEq, Repr

/-- The `std::unique_ptr` to the transaction: null, to a transaction, or to one that is over. -/
inductive Work where
  | null
  | opened
  | closed
  deriving DecidableEq, Repr

/-- `call` is the `Back` or `Front` that has not returned the element yet. -/
structure Element (δ : Type) where
  owner : Nat
  work : Work
  pos : Int
  data : δ
  call : Option Side
  deriving DecidableEq, Repr

/-- The transaction that is open on a connection, of an element. In the server it may be over. -/
inductive Transaction where
  | idle
  | live (element : Nat)
  | failed (element : Nat)
  deriving DecidableEq, Repr

/-- The table with the instances that share it, each with its connection. `pushed` and `popped`
are what the instances have answered for. -/
structure World (δ : Type) where
  rows : List (Row δ)
  seq : Nat
  transactions : Nat → Transaction
  elements : Nat → Option (Element δ)
  created : Nat
  pushed : List (Int × δ)
  popped : List (Int × δ)

def World.new : World δ where
  rows := []
  seq := 0
  transactions _ := .idle
  elements _ := none
  created := 0
  pushed := []
  popped := []

inductive Op (δ : Type) where
  | push (i : Nat) (side : Side) (data : δ) (io : Io)
  | take (i : Nat) (side : Side) (pop : Bool) (io : Io)
  | finish (element : Nat) (io : Io)
  | pop (element : Nat) (io : Io)
  | release (element : Nat)
  | destroy (element : Nat)
  | breaks (i : Nat)
  deriving DecidableEq, Repr

/-- A function that pops has `selected` before it returns. -/
inductive Result (δ : Type) where
  | done
  | element (id : Nat) (data : δ)
  | selected (id : Nat) (data : δ)
  | error (e : Conn.Error)
  | thrown (f : Failure)
  | absent
  deriving DecidableEq, Repr

/-- A function, with the lines of its two handlers. -/
structure Place where
  func : String
  sqlLine : String
  line : String

def pushPlace : Side → Place
  | .back => ⟨"PushBack", "48", "59"⟩
  | .front => ⟨"PushFront", "88", "99"⟩

def takePlace : Side → Place
  | .back => ⟨"Back", "142", "154"⟩
  | .front => ⟨"Front", "198", "210"⟩

def popPlace : Place := ⟨"Pop", "313", "325"⟩

/-- `_seq * _dir`. -/
def position (side : Side) (seq : Nat) : Int :=
  match side with
  | .back => seq
  | .front => -seq

/-- What a row holds for those who see it from outside. -/
def Row.item (r : Row δ) : Int × δ := (r.pos, r.data)

/-- A row as a slot, which the instance with the row's lock holds. -/
def Row.slot (r : Row δ) : Slot δ Nat := ⟨r.data, r.locker⟩

/-- No other transaction has locked the row. -/
def Row.free (i : Nat) (r : Row δ) : Bool :=
  r.locker.isNone || r.locker == some i

def Row.lock (i : Nat) (r : Row δ) : Row δ :=
  { r with locker := some i }

def Row.unlock (i : Nat) (r : Row δ) : Row δ :=
  if r.locker = some i then { r with locker := none } else r

/-- `ORDER BY _pos`. -/
def orderBy (side : Side) (rows : List (Row δ)) : List (Row δ) :=
  match side with
  | .back => descending Row.pos rows
  | .front => ascending Row.pos rows

/-- `LIMIT 1 FOR UPDATE SKIP LOCKED`. -/
def select (side : Side) (i : Nat) (rows : List (Row δ)) : Option (Row δ) :=
  (orderBy side rows).find? (Row.free i)

/-- The constant after a quote, and what comes after its last quote. A quote in it is doubled. -/
def readConstant : Bytes → Option (Bytes × Bytes)
  | [] => none
  | c :: text =>
      if c = 39 then
        match text with
        | [] => some ([], [])
        | d :: text' =>
            if d = 39 then (readConstant text').map fun r => (39 :: r.1, r.2)
            else some ([], text)
      else (readConstant text).map fun r => (c :: r.1, r.2)

section Functions

variable (lib : Library δ) (w : World δ)

/-- The error that is thrown when a statement fails. -/
def failed (place : Place) (pos : Option Int) (f : Failure) : Conn.Error :=
  let fields (line message key : String) (what : Bytes) : List (String × Bytes) :=
    [("file", lib.file), ("line", utf8 line), ("func", utf8 place.func), ("table", lib.table)] ++
      pos.toList.map (fun p => ("pos", Query.decimal p)) ++
      [("message", utf8 message), (key, what)]
  match f with
  | .sqlError what => ⟨fields place.sqlLine "failed with a sql_error" "sql_error" what⟩
  | .exception what => ⟨fields place.line "failed with an exception" "exception" what⟩

/-- The error of `Pop` for an element without its transaction. -/
def transactionMissing (pos : Int) : Conn.Error :=
  ⟨[("file", lib.file), ("line", utf8 "296"), ("func", utf8 "Pop"), ("table", lib.table),
    ("pos", Query.decimal pos), ("message", utf8 "transaction missing")]⟩

/-- The `INSERT`, up to the data. -/
def insertHead (side : Side) : Bytes :=
  utf8 "INSERT INTO " ++ lib.table ++ utf8 " (_dir, _data)" ++
    match side with
    | .back => utf8 " VALUES (1, '"
    | .front => utf8 " VALUES (-1, '"

/-- The text of the `INSERT` of a push. -/
def insertQuery (side : Side) (text : Bytes) : Bytes :=
  insertHead lib side ++ text ++ utf8 "'::jsonb);"

/-- The constant of an `INSERT`. -/
def readInsert (side : Side) (query : Bytes) : Option Bytes := do
  let rest ← query.dropPrefix? (insertHead lib side)
  let (constant, rest) ← readConstant rest
  if rest = utf8 "::jsonb);" then some constant else none

/-- The rows after the statement, unless PostgreSQL refuses it. -/
def execInsert (side : Side) (pos : Int) (query : Bytes) (rows : List (Row δ)) :
    Option (List (Row δ)) :=
  match readInsert lib side query with
  | some constant => (lib.jsonb constant).map fun data => rows ++ [⟨pos, data, none⟩]
  | none => lib.other query rows

/-- The instance is in a `Back` or `Front` that has not returned. -/
def World.busy (i : Nat) : Bool :=
  match w.transactions i with
  | .idle => false
  | .live id => ((w.elements id).bind Element.call).isSome
  | .failed id => ((w.elements id).bind Element.call).isSome

/-- The position of the next row: the sequence goes on also for those that fail. -/
def World.nextPos (side : Side) (io : Io) : Int :=
  position side (w.seq + io.skipped + 1)

/-- `PushBack` and `PushFront`. -/
def push (i : Nat) (side : Side) (data : δ) (io : Io) : World δ × Result δ :=
  if w.busy i then (w, .absent)
  else
    match lib.dump data with
    | none => (w, .thrown (.exception lib.invalidUtf8))
    | some text =>
        if w.transactions i ≠ .idle then
          (w, .error (failed lib (pushPlace side) none (.exception lib.usageError)))
        else
          match io.refusal with
          | some f => (w, .error (failed lib (pushPlace side) none f))
          | none =>
              match execInsert lib side (w.nextPos side io) (insertQuery lib side text) w.rows with
              | none =>
                  let f := .sqlError (lib.refused (insertQuery lib side text))
                  (w, .error (failed lib (pushPlace side) none f))
              | some rows =>
                  match io.commit with
                  | some f => (w, .error (failed lib (pushPlace side) none f))
                  | none =>
                      ({ w with
                        rows
                        seq := w.seq + io.skipped + 1
                        pushed := w.pushed ++ [(w.nextPos side io, data)] }, .done)

/-- A new element for a row, with the row locked. -/
def World.acquire (i : Nat) (r : Row δ) (call : Option Side) : World δ :=
  { w with
    rows := w.rows.map fun r' => if r'.pos = r.pos then r'.lock i else r'
    transactions := Function.update w.transactions i (.live w.created)
    elements := Function.update w.elements w.created (some ⟨i, .opened, r.pos, r.data, call⟩)
    created := w.created + 1 }

/-- `Back` and `Front`, up to the test of `pop`. -/
def take (i : Nat) (side : Side) (pop : Bool) (io : Io) : World δ × Result δ :=
  if w.busy i then (w, .absent)
  else if w.transactions i ≠ .idle then
    (w, .error (failed lib (takePlace side) none (.exception lib.usageError)))
  else
    match io.refusal with
    | some f => (w, .error (failed lib (takePlace side) none f))
    | none =>
        match select side i w.rows with
        | none => (w, .error (failed lib (takePlace side) none (.exception lib.unexpectedRows)))
        | some r =>
            if pop then (w.acquire i r (some side), .selected w.created r.data)
            else (w.acquire i r none, .element w.created r.data)

/-- The transaction fails in the server, which lets its locks go. -/
def World.fail (i id : Nat) : World δ :=
  { w with
    rows := w.rows.map (Row.unlock i)
    transactions := Function.update w.transactions i (.failed id) }

/-- The transaction is over, and the connection is there for another. -/
def World.endWork (i : Nat) : World δ :=
  { w with
    rows := w.rows.map (Row.unlock i)
    transactions := Function.update w.transactions i .idle }

/-- An element's transaction is over, if it has one, and the element is what is left of it. -/
def World.leave (id : Nat) (e : Element δ) (left : Option (Element δ)) : World δ :=
  let w := if e.work = .opened then w.endWork e.owner else w
  { w with elements := Function.update w.elements id left }

def World.delete (e : Element δ) : World δ :=
  { w with
    rows := w.rows.filter fun r => r.pos ≠ e.pos
    popped := w.popped ++ [(e.pos, e.data)] }

/-- `Element::Pop`. -/
def popElement (id : Nat) (e : Element δ) (io : Io) : World δ × Result δ :=
  match e.work with
  | .null => (w, .error (transactionMissing lib e.pos))
  | .closed => (w, .error (failed lib popPlace (some e.pos) (.exception lib.usageError)))
  | .opened =>
      match w.transactions e.owner with
      | .live _ =>
          match io.refusal with
          | some f => (w.fail e.owner id, .error (failed lib popPlace (some e.pos) f))
          | none =>
              match io.commit with
              | some f => (w.leave id e (some { e with work := .closed }), .thrown f)
              | none => ((w.delete e).leave id e (some { e with work := .closed }), .done)
      | _ =>
          let f := io.refusal.getD (.sqlError lib.aborted)
          (w, .error (failed lib popPlace (some e.pos) f))

/-- The element goes away. -/
def World.drop (id : Nat) : World δ :=
  match w.elements id with
  | some e => w.leave id e none
  | none => w

/-- The rest of a `Back` or `Front` that pops. -/
def finish (id : Nat) (io : Io) : World δ × Result δ :=
  match w.elements id with
  | none => (w, .absent)
  | some e =>
      match e.call with
      | none => (w, .absent)
      | some side =>
          match popElement lib w id e io with
          | (w', .done) =>
              (w'.leave id { e with work := .closed } (some { e with work := .closed, call := none }),
                .element id e.data)
          | (w', .error err) => (w'.drop id, .error err)
          | (w', .thrown f) => (w'.drop id, .error (failed lib (takePlace side) none f))
          | (w', r) => (w', r)

/-- What a client does with an element, if its instance is not in a call. -/
def onElement (id : Nat) (act : Element δ → World δ × Result δ) : World δ × Result δ :=
  match w.elements id with
  | none => (w, .absent)
  | some e => if w.busy e.owner ∨ e.call.isSome then (w, .absent) else act e

/-- `Element::Pop`. -/
def pop (id : Nat) (io : Io) : World δ × Result δ :=
  onElement w id fun e => popElement lib w id e io

/-- `Element::Release`. -/
def release (id : Nat) : World δ × Result δ :=
  onElement w id fun e => (w.leave id e (some { e with work := .null }), .done)

/-- `Element::~Element`. -/
def destroy (id : Nat) : World δ × Result δ :=
  onElement w id fun e => (w.leave id e none, .done)

/-- The connection of an instance breaks. -/
def breaks (i : Nat) : World δ × Result δ :=
  match w.transactions i with
  | .live id => (w.fail i id, .done)
  | _ => (w, .done)

/-- A call of an instance. -/
def step (op : Op δ) : World δ × Result δ :=
  match op with
  | .push i side data io => push lib w i side data io
  | .take i side pop io => take lib w i side pop io
  | .finish id io => finish lib w id io
  | .pop id io => pop lib w id io
  | .release id => release w id
  | .destroy id => destroy w id
  | .breaks i => breaks w i

/-- What is there after a call, whatever it answers. -/
def next (op : Op δ) : World δ :=
  (step lib w op).1

end Functions

section Fields

variable (w : World δ) (i id : Nat) (r : Row δ) (call : Option Side)

@[simp] theorem World.acquire_rows : (w.acquire i r call).rows =
    w.rows.map fun r' => if r'.pos = r.pos then r'.lock i else r' := rfl

@[simp] theorem World.acquire_transactions : (w.acquire i r call).transactions =
    Function.update w.transactions i (.live w.created) := rfl

@[simp] theorem World.acquire_elements : (w.acquire i r call).elements =
    Function.update w.elements w.created (some ⟨i, .opened, r.pos, r.data, call⟩) := rfl

@[simp] theorem World.fail_rows : (w.fail i id).rows = w.rows.map (Row.unlock i) := rfl

@[simp] theorem World.fail_transactions : (w.fail i id).transactions =
    Function.update w.transactions i (.failed id) := rfl

@[simp] theorem World.endWork_rows : (w.endWork i).rows = w.rows.map (Row.unlock i) := rfl

@[simp] theorem World.endWork_transactions : (w.endWork i).transactions =
    Function.update w.transactions i .idle := rfl

variable {w i id} {e : Element δ} {left : Option (Element δ)}

theorem World.leave_opened (hopened : e.work = .opened) : w.leave id e left =
    { w.endWork e.owner with elements := Function.update w.elements id left } := by
  rw [World.leave, if_pos hopened]
  rfl

theorem World.leave_of_ne (hwork : e.work ≠ .opened) : w.leave id e left =
    { w with elements := Function.update w.elements id left } := by
  rw [World.leave, if_neg hwork]

end Fields

end PgFort.PersistentDeque
