import PgFort.Conn
import PgFort.Regexes

/-!
The translation of proxy commands to SQL: one pass over the text after the other, each of which
replaces all commands of one kind.
-/

namespace PgFort.ProxyCommand

open PgFort.Framing
open PgFort.Conn
open PgFort.Regexes

def isDigit (c : UInt8) : Bool := decide (48 ≤ c) && decide (c ≤ 57)

def isUpper (c : UInt8) : Bool := decide (65 ≤ c) && decide (c ≤ 90)

def isLower (c : UInt8) : Bool := decide (97 ≤ c) && decide (c ≤ 122)

def toLower (c : UInt8) : UInt8 := if isUpper c then c + 32 else c

def toUpper (c : UInt8) : UInt8 := if isLower c then c - 32 else c

/-- `\w` -/
def isWord (c : UInt8) : Bool := isDigit c || isUpper c || isLower c || c == 95

/-- `\s` -/
def isSpace (c : UInt8) : Bool := c == 32 || (decide (9 ≤ c) && decide (c ≤ 13))

def lower (s : Bytes) : Bytes := s.map toLower

def upper (s : Bytes) : Bytes := s.map toUpper

theorem toUpper_toLower (c : UInt8) : toUpper (toLower c) = toUpper c := by
  simp only [toUpper, toLower, isUpper, isLower, Bool.and_eq_true, decide_eq_true_eq]
  grind

theorem upper_lower (s : Bytes) : upper (lower s) = upper s := by
  rw [upper, lower, List.map_map, upper]
  exact List.map_congr_left fun c _ => toUpper_toLower c

section Expressions

def seqs (rs : List (Regex UInt8)) : Regex UInt8 := rs.foldr .seq .nothing

/-- `+` -/
def plus (p : UInt8 → Bool) : Regex UInt8 := .seq (.char p) (.star true (.char p))

/-- `?` -/
def optional (r : Regex UInt8) : Regex UInt8 := .alt r .nothing

def exactly (s : String) : Regex UInt8 := seqs ((utf8 s).map fun c => .char (· == c))

/-- With `icase`. -/
def literal (s : String) : Regex UInt8 :=
  seqs ((utf8 s).map fun c => .char fun x => toLower x == toLower c)

/-- `\s+` -/
def spaces : Regex UInt8 := plus isSpace

/-- `\s*` -/
def mayBeSpaces : Regex UInt8 := .star true (.char isSpace)

/-- `(\w+)` -/
def word (n : Nat) : Regex UInt8 := .group n (plus isWord)

/-- `(\w+(,\s*\w+)*)` -/
def wordList (n : Nat) : Regex UInt8 :=
  .group n (seqs [plus isWord,
    .star true (.group (n + 1) (seqs [literal ",", mayBeSpaces, plus isWord]))])

end Expressions

section Groups

variable (gs : Groups UInt8)

def matched (n : Nat) : Bool := (gs.lookup n).isSome

def text (n : Nat) : Bytes := (gs.lookup n).getD []

/-- The text of a format. Formats use `$` only before the digit of a group. -/
def format : Bytes → Bytes
  | 36 :: d :: tpl =>
      if isDigit d then text gs (d.toNat - 48) ++ format tpl else 36 :: format (d :: tpl)
  | c :: tpl => c :: format tpl
  | [] => []

end Groups

/-- `std::regex_replace` -/
def regexReplace (re : Regex UInt8) (tpl : String) (s : Bytes) : Except Conn.Error Bytes :=
  replace re (fun gs => .ok (format gs (utf8 tpl))) s

/-- The words `\w+` of a text, as one search after the other finds them. -/
def searchWords : Nat → Bytes → List Bytes
  | 0, _ => []
  | n + 1, s =>
      match search (word 0) s with
      | none => []
      | some m => text m.groups 0 :: searchWords n m.after

def quoteWords (s : Bytes) : Except Conn.Error Bytes :=
  regexReplace (word 1) "'$1'" s

/-- `(--[^\r\n]*)|(/\*[\w\W]*?(?=\*/)\*/)` -/
def comment : Regex UInt8 :=
  .alt (.group 1 (.seq (exactly "--") (.star true (.char fun c => c != 13 && c != 10))))
    (.group 2 (seqs [exactly "/*", .star false (.char fun _ => true), .ahead (exactly "*/"),
      exactly "*/"]))

/-- `RemoveComments`. -/
def removeComments : Bytes → Except Conn.Error Bytes :=
  regexReplace comment ""

/-- `ENABLE\s+ACCESS\s+CONTROL\s+(\w+)` -/
def enableAccessControl : Regex UInt8 :=
  seqs [literal "ENABLE", spaces, literal "ACCESS", spaces, literal "CONTROL", spaces, word 1]

/-- `TranslateEnableAccessControl`. -/
def translateEnableAccessControl : Bytes → Except Conn.Error Bytes :=
  regexReplace enableAccessControl
    ("CREATE TABLE $1__access_bindings__ (" ++
      "   _id             BIGINT NOT NULL," ++
      "   _role           TEXT NOT NULL," ++
      "   _principal      TEXT NOT NULL," ++
      "   _ref            BIGINT NOT NULL," ++
      "   _inheritance    BIGINT NOT NULL DEFAULT 0," ++
      "   _ts             TIMESTAMP DEFAULT NOW()," ++
      "" ++
      "   PRIMARY KEY (_id, _inheritance, _ref)," ++
      "   FOREIGN KEY (_id) REFERENCES $1 (id) ON DELETE CASCADE," ++
      "   FOREIGN KEY (_role) REFERENCES __access_roles__ (_name) ON DELETE RESTRICT," ++
      "   FOREIGN KEY (_ref) REFERENCES __access_binding_refs__ (_id) ON DELETE CASCADE," ++
      "   FOREIGN KEY (_inheritance) REFERENCES __access_inheritances__ (_id) ON DELETE CASCADE" ++
      ");" ++
      "" ++
      "CREATE TRIGGER $1__upsert__" ++
      "   AFTER INSERT OR UPDATE ON $1" ++
      "   FOR EACH ROW" ++
      "   EXECUTE FUNCTION __set_access_bindings__();" ++
      "" ++
      "CREATE VIEW $1__acls__ AS" ++
      "   SELECT b._id, b._role, b._principal, r._operation, r._columns" ++
      "   FROM $1__access_bindings__ b, __access_roles_expanded__ r" ++
      "   WHERE r._relation = '$1'::REGCLASS AND b._role = r._name;" ++
      "" ++
      "GRANT ALL PRIVILEGES ON $1, $1__acls__ TO PUBLIC")

/-- `CREATE\s+ACCESS\s+PERMISSION\s+(\w+)\s+ON\s+(\w+)\s+FOR\s+(\w+)` -/
def createAccessPermission : Regex UInt8 :=
  seqs [literal "CREATE", spaces, literal "ACCESS", spaces, literal "PERMISSION", spaces, word 1,
    spaces, literal "ON", spaces, word 2, spaces, literal "FOR", spaces, word 3]

/-- `TranslateCreateAccessPermission`. -/
def translateCreateAccessPermission : Bytes → Except Conn.Error Bytes :=
  regexReplace createAccessPermission
    ("INSERT INTO __access_permissions__ (_name, _relation, _operation)" ++
      "\tVALUES (LOWER('$1'), '$2', UPPER('$3'))")

/-- `CREATE\s+ACCESS\s+ROLE\s+(\w+)\s+WITH\s+(\w+(,\s*\w+)*)` -/
def createAccessRole : Regex UInt8 :=
  seqs [literal "CREATE", spaces, literal "ACCESS", spaces, literal "ROLE", spaces, word 1,
    spaces, literal "WITH", spaces, wordList 2]

def insertAccessRole (r p : Bytes) : Bytes :=
  utf8 "INSERT INTO __access_roles__ (_name, _permissions) VALUES ('" ++ r ++ utf8 "', ARRAY[" ++
    p ++ utf8 "]);" ++ utf8 "INSERT INTO __access_roles_denorm__ (_name, _permission)" ++
    utf8 " SELECT _name, unnest(_permissions)" ++ utf8 " FROM __access_roles__" ++
    utf8 " WHERE _name = '" ++ r ++ utf8 "'"

/-- `TranslateCreateAccessRole`: the names are written in lower case. -/
def translateCreateAccessRole : Bytes → Except Conn.Error Bytes :=
  replace createAccessRole fun m => do
    let r := lower (text m 1)
    let p ← quoteWords (lower (text m 2))
    return insertAccessRole r p

section CreateAccessInheritance

variable (file : Bytes)

/-- `CREATE\s+ACCESS\s+INHERITANCE\s+FROM\s+(\w+)\s*\((\w+(,\s*\w+)*)\)\s+`
`TO\s+(\w+)\s*\((\w+(,\s*\w+)*)\)` -/
def createAccessInheritance : Regex UInt8 :=
  seqs [literal "CREATE", spaces, literal "ACCESS", spaces, literal "INHERITANCE", spaces,
    literal "FROM", spaces, word 1, mayBeSpaces, literal "(", wordList 2, literal ")", spaces,
    literal "TO", spaces, word 4, mayBeSpaces, literal "(", wordList 5, literal ")"]

/-- The loop over the columns of both sides, up to the shorter of them. -/
def columnEquations : Bool → List Bytes → List Bytes → Bytes
  | first, f :: fs, t :: ts =>
      utf8 (if first then " WHERE " else " AND ") ++ f ++ utf8 " = $1." ++ t ++
        columnEquations false fs ts
  | _, _, _ => []

/-- The error for lists of different lengths, which has no code. -/
def dimensionMismatch : Conn.Error :=
  ⟨[("S", utf8 "ERROR"),
    ("M", utf8 "dimension mismatch between source and destination columns"),
    ("R", utf8 "TranslateCreateAccessInheritance"), ("F", file), ("L", utf8 "204")]⟩

/-- `TranslateCreateAccessInheritance`. -/
def translateCreateAccessInheritance : Bytes → Except Conn.Error Bytes :=
  replace createAccessInheritance fun m =>
    let f := text m 1
    let t := text m 4
    let fs := searchWords (text m 2).length (text m 2)
    let ts := searchWords (text m 5).length (text m 5)
    if fs.length ≠ ts.length then
      .error (dimensionMismatch file)
    else
      .ok (utf8 "INSERT INTO __access_inheritances__ (_src, _dst, _src_query)" ++
        utf8 " VALUES ('" ++ f ++ utf8 "', '" ++ t ++ utf8 "', 'SELECT id FROM " ++ f ++
        columnEquations true fs ts ++ utf8 "')")

end CreateAccessInheritance

/-- `LIST\s+ACCESS\s+PERMISSION(\s+ON\s+(\w+))?` -/
def listAccessPermission : Regex UInt8 :=
  seqs [literal "LIST", spaces, literal "ACCESS", spaces, literal "PERMISSION",
    optional (.group 1 (seqs [spaces, literal "ON", spaces, word 2]))]

/-- `TranslateListAccessPermission`. -/
def translateListAccessPermission : Bytes → Except Conn.Error Bytes :=
  replace listAccessPermission fun m =>
    .ok (utf8 "SELECT * FROM __access_permissions__" ++
      if matched m 2 then utf8 " WHERE _relation = '" ++ text m 2 ++ utf8 "'::REGCLASS" else [])

/-- `LIST\s+ACCESS\s+ROLE(\s+WITH\s+((ALL)\s*\((\w+(,\s*\w+)*)\)|(ANY)\s*\((\w+(,\s*\w+)*)\)|(\w+)))?` -/
def listAccessRole : Regex UInt8 :=
  seqs [literal "LIST", spaces, literal "ACCESS", spaces, literal "ROLE",
    optional (.group 1 (seqs [spaces, literal "WITH", spaces,
      .group 2
        (.alt (seqs [.group 3 (literal "ALL"), mayBeSpaces, literal "(", wordList 4, literal ")"])
          (.alt (seqs [.group 6 (literal "ANY"), mayBeSpaces, literal "(", wordList 7, literal ")"])
            (word 9)))]))]

/-- What the permissions of a command ask of those of a role. -/
def permissionCondition (m : Groups UInt8) : Except Conn.Error Bytes :=
  if matched m 3 then do
    let p ← quoteWords (lower (text m 4))
    return utf8 " WHERE _permissions @> ARRAY[" ++ p ++ utf8 "]"
  else if matched m 6 then do
    let p ← quoteWords (lower (text m 7))
    return utf8 " WHERE _permissions && ARRAY[" ++ p ++ utf8 "]"
  else if matched m 2 then
    .ok (utf8 " WHERE _permissions @> ARRAY['" ++ lower (text m 2) ++ utf8 "']")
  else
    .ok []

/-- `TranslateListAccessRole`. -/
def translateListAccessRole : Bytes → Except Conn.Error Bytes :=
  replace listAccessRole fun m => do
    let condition ← permissionCondition m
    return utf8 "SELECT * FROM __access_roles__" ++ condition

section ListAccessInheritance

variable (file : Bytes)

/-- `LIST\s+ACCESS\s+INHERITANCE(\s+(FROM|TO)\s+(\w+))?` -/
def listAccessInheritance : Regex UInt8 :=
  seqs [literal "LIST", spaces, literal "ACCESS", spaces, literal "INHERITANCE",
    optional (.group 1 (seqs [spaces, .group 2 (.alt (literal "FROM") (literal "TO")), spaces,
      word 3]))]

/-- The error for a direction that is none. -/
def syntaxError (d : Bytes) : Conn.Error :=
  ⟨[("S", utf8 "ERROR"), ("M", utf8 "syntax error at or near \"" ++ d ++ utf8 "\""),
    ("R", utf8 "TranslateListAccessInheritance"), ("F", file), ("L", utf8 "325")]⟩

/-- `TranslateListAccessInheritance`. -/
def translateListAccessInheritance : Bytes → Except Conn.Error Bytes :=
  replace listAccessInheritance fun m =>
    let sql := utf8 "SELECT * FROM __access_inheritances__"
    if matched m 2 then
      let d := upper (text m 2)
      if d = utf8 "FROM" then
        .ok (sql ++ (utf8 " WHERE _src = '" ++ text m 3 ++ utf8 "'::REGCLASS"))
      else if d = utf8 "TO" then
        .ok (sql ++ (utf8 " WHERE _dst = '" ++ text m 3 ++ utf8 "'::REGCLASS"))
      else
        .error (syntaxError file d)
    else
      .ok sql

end ListAccessInheritance

/-- `BIND\s+ACCESS\s+ROLE\s+(\w+)\s+TO\s+([\w@]+)\s+ON\s+(\w+)\s*\(([^;]+)\)` -/
def bindAccessRole : Regex UInt8 :=
  seqs [literal "BIND", spaces, literal "ACCESS", spaces, literal "ROLE", spaces, word 1, spaces,
    literal "TO", spaces, .group 2 (plus fun c => isWord c || c == 64), spaces,
    literal "ON", spaces, word 3, mayBeSpaces, literal "(", .group 4 (plus (· != 59)), literal ")"]

def bindFormat : String :=
  "WITH r AS" ++
    "   (INSERT INTO __access_binding_refs__ (_origin, _origin_id)" ++
    "       VALUES ('$3', ($4))" ++
    "       RETURNING *)" ++
    "INSERT INTO $3__access_bindings__ (_role, _principal, _id, _ref)" ++
    "   SELECT '$1', '$2', _origin_id, _id" ++
    "   FROM r"

/-- `TranslateBindAccessRole`. -/
def translateBindAccessRole : Bytes → Except Conn.Error Bytes :=
  regexReplace bindAccessRole bindFormat

/-- `(p|(\$\d+))` -/
def orParameter (n : Nat) (r : Regex UInt8) : Regex UInt8 :=
  .group n (.alt (.group (n + 1) r) (.group (n + 2) (.seq (literal "$") (plus isDigit))))

/-- `UNBIND\s+ACCESS\s+ROLE\s+((\w+)|(\$\d+))\s+FROM\s+(([\w@]+)|(\$\d+))\s+`
`ON\s+((\w+)|(\$\d+))\s*\(([^;]+)\)` -/
def unbindAccessRole : Regex UInt8 :=
  seqs [literal "UNBIND", spaces, literal "ACCESS", spaces, literal "ROLE", spaces,
    orParameter 1 (plus isWord), spaces, literal "FROM", spaces,
    orParameter 4 (plus fun c => isWord c || c == 64), spaces, literal "ON", spaces,
    orParameter 7 (plus isWord), mayBeSpaces, literal "(", .group 10 (plus (· != 59)), literal ")"]

/-- A column compared with what one of two groups has matched, a name or a parameter. -/
def comparison (m : Groups UInt8) (column : String) (name parameter : Nat) : Bytes :=
  if matched m name then utf8 column ++ utf8 "'" ++ text m name ++ utf8 "'"
  else if matched m parameter then utf8 column ++ text m parameter
  else []

def deleteBindingRefs (m : Groups UInt8) : Bytes :=
  utf8 "DELETE FROM __access_binding_refs__ r" ++ utf8 " USING " ++ text m 7 ++
    utf8 "__access_bindings__ b" ++ utf8 " WHERE b._id = (" ++ text m 10 ++ utf8 ")" ++
    comparison m " AND b._role = " 2 3 ++ comparison m " AND b._principal = " 5 6 ++
    utf8 " AND b._inheritance = 0" ++ utf8 " AND b._ref = r._id"

/-- `TranslateUnbindAccessRole`. -/
def translateUnbindAccessRole : Bytes → Except Conn.Error Bytes :=
  replace unbindAccessRole fun m => .ok (deleteBindingRefs m)

/-- `LIST\s+ACCESS\s+ROLE\s+BINDING\s+ON\s+(\w+)\s*\(([^;]+)\)` -/
def listAccessRoleBinding : Regex UInt8 :=
  seqs [literal "LIST", spaces, literal "ACCESS", spaces, literal "ROLE", spaces,
    literal "BINDING", spaces, literal "ON", spaces, word 1, mayBeSpaces, literal "(",
    .group 2 (plus (· != 59)), literal ")"]

/-- `TranslateListAccessRoleBinding`. -/
def translateListAccessRoleBinding : Bytes → Except Conn.Error Bytes :=
  regexReplace listAccessRoleBinding
    ("SELECT *" ++
      "   FROM $1__access_bindings__" ++
      "   WHERE _id = ($2)")

section Translate

variable (file : Bytes)

/-- The passes of `Translate`, in their order. -/
def passes : List (Bytes → Except Conn.Error Bytes) :=
  [translateEnableAccessControl, translateCreateAccessPermission, translateCreateAccessRole,
    translateCreateAccessInheritance file, translateListAccessPermission,
    translateListAccessRoleBinding, translateListAccessRole, translateListAccessInheritance file,
    translateBindAccessRole, translateUnbindAccessRole]

/-- A text that cannot be translated is returned as it is. -/
def translate (query : Bytes) : Bytes × Conn.Error :=
  match removeComments query >>= fun s => (passes file).foldlM (fun s pass => pass s) s with
  | .ok s => (s, .noError)
  | .error err => (query, err)

end Translate

end PgFort.ProxyCommand
