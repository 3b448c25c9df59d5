import PgFort.CommandPasses

namespace PgFort.CommandTexts

open PgFort.Framing
open PgFort.Conn
open PgFort.Regexes
open PgFort.FirstWays
open PgFort.ProxyCommand
open PgFort.CommandLayouts
open PgFort.CommandShapes

structure Names where
  first : Word
  others : List Word

/-- A query in a command, without its white space. -/
structure Query where
  bytes : Bytes
  ne_nil : bytes ≠ []

def strip (s : Bytes) : Bytes := s.filter fun c => !isSpace c

/-- A query with its white space, in which neither a comment nor a command begins. -/
structure Copy (q : Query) where
  bytes : Bytes
  stripped : strip bytes = q.bytes
  semicolon : 59 ∉ bytes
  comment : Unmatched comment bytes [41]
  command : ∀ (f : Form) (following : Bytes), Unmatched f.regex bytes (41 :: following)

/-- The permissions that a role is listed by. -/
inductive Having where
  | one (permission : Word)
  | all (permissions : Names)
  | any (permissions : Names)

inductive Side where
  | source
  | target
  deriving DecidableEq, Repr

inductive Command where
  | enableAccessControl (table : Word)
  | createAccessPermission (name table operation : Word)
  | createAccessRole (role : Word) (permissions : Names)
  | createAccessInheritance (f : Word) (fs : Names) (t : Word) (ts : Names)
      (matched : fs.others.length = ts.others.length)
  | listAccessPermission (table : Option Word)
  | listAccessRoleBinding (table : Word) (query : Query)
  | listAccessRole (having : Option Having)
  | listAccessInheritance (side : Option (Side × Word))
  | bindAccessRole (role : Word) (principal : Principal) (table : Word) (query : Query)
  | unbindAccessRole (role : Operand false) (principal : Operand true) (table : Operand false)
      (query : Query)

/-- The case of the keywords, and the white space: between words, where a parenthesis separates, and
in front of the commas of each list and behind them. -/
structure Layout (q : Option Query) where
  keyword : ℕ → (s : String) → Keyword s
  breaks : ℕ → Break
  gaps : ℕ → Gap
  commas : ℕ → ℕ → Gap × Gap
  copy : ∀ query, q = some query → Copy query

namespace Layout

variable {q : Option Query} (l : Layout q)

def listed (n : ℕ) (ws : List Word) : List Listed :=
  ws.mapIdx fun i w => ⟨(l.commas n i).1, (l.commas n i).2, w⟩

/-- The query as it is laid out. -/
def copied : {q : Option Query} → Layout q → Bytes
  | none, _ => []
  | some query, l => (l.copy query rfl).bytes

end Layout

/-- A query stands in parentheses. -/
def enclose : Option Query → Bytes → Bytes
  | none, p => p
  | some _, p => 40 :: (p ++ [41])

/-- A name in lower case and in quotation marks. -/
def quote (w : Word) : Bytes := 39 :: (lower w.bytes ++ [39])

/-- The names in quotes, without white space. -/
def Names.quoted (ns : Names) : Bytes :=
  quote ns.first ++ ns.others.flatMap fun w => 44 :: quote w

theorem isWord_toLower {c : UInt8} (h : isWord c = true) : isWord (toLower c) = true := by
  have hall : (allBytes.all fun c => !isWord c || isWord (toLower c)) = true := by decide +kernel
  simpa [h] using List.all_eq_true.mp hall c (mem_allBytes c)

def lowerWord (w : Word) : Word where
  bytes := lower w.bytes
  ne_nil := by simpa [lower] using w.ne_nil
  word := by
    intro c hc
    obtain ⟨x, hx, rfl⟩ := List.mem_map.mp hc
    exact isWord_toLower (w.word x hx)

/-- A format with parts in the places of its groups. -/
def formatParts (part : ℕ → Part) : Bytes → List Part
  | 36 :: d :: tpl =>
      if isDigit d then part (d.toNat - 48) :: formatParts part tpl
      else .text [36] :: formatParts part (d :: tpl)
  | c :: tpl => .text [c] :: formatParts part tpl
  | [] => []

def enableFormat : String :=
  "CREATE TABLE $1__access_bindings__ (" ++
    "   _id             BIGINT NOT NULL," ++
    "   _role           TEXT NOT NULL," ++
    "   _principal      TEXT NOT NULL," ++
    "   _ref            BIGINT NOT NULL," ++
    "   _inheritance    BIGINT NOT NULL DEFAULT 0," ++
    "   _ts             TIMESTAMP DEFAULT NOW()," ++
    "" ++
    "   PRIMARY KEY (_id, _inheritance, _ref)," ++
    "   FOREIGN KEY (_id) REFERENCES $1 (id) ON DELETE CASCADE," ++
    "   FOREIGN KEY (_role) REFERENCES __access_roles__ (_name) ON DELETE RESTRICT," ++
    "   FOREIGN KEY (_ref) REFERENCES __access_binding_refs__ (_id) ON DELETE CASCADE," ++
    "   FOREIGN KEY (_inheritance) REFERENCES __access_inheritances__ (_id) ON DELETE CASCADE" ++
    ");" ++
    "" ++
    "CREATE TRIGGER $1__upsert__" ++
    "   AFTER INSERT OR UPDATE ON $1" ++
    "   FOR EACH ROW" ++
    "   EXECUTE FUNCTION __set_access_bindings__();" ++
    "" ++
    "CREATE VIEW $1__acls__ AS" ++
    "   SELECT b._id, b._role, b._principal, r._operation, r._columns" ++
    "   FROM $1__access_bindings__ b, __access_roles_expanded__ r" ++
    "   WHERE r._relation = '$1'::REGCLASS AND b._role = r._name;" ++
    "" ++
    "GRANT ALL PRIVILEGES ON $1, $1__acls__ TO PUBLIC"

def permissionFormat : String :=
  "INSERT INTO __access_permissions__ (_name, _relation, _operation)" ++
    "\tVALUES (LOWER('$1'), '$2', UPPER('$3'))"

namespace Command

def form : Command → Form
  | enableAccessControl _ => .enableAccessControl
  | createAccessPermission .. => .createAccessPermission
  | createAccessRole .. => .createAccessRole
  | createAccessInheritance .. => .createAccessInheritance
  | listAccessPermission _ => .listAccessPermission
  | listAccessRoleBinding .. => .listAccessRoleBinding
  | listAccessRole _ => .listAccessRole
  | listAccessInheritance _ => .listAccessInheritance
  | bindAccessRole .. => .bindAccessRole
  | unbindAccessRole .. => .unbindAccessRole

def query : Command → Option Query
  | listAccessRoleBinding _ q => some q
  | bindAccessRole _ _ _ q => some q
  | unbindAccessRole _ _ _ q => some q
  | _ => none

section Parts

variable {q : Option Query} (l : Layout q)

/-- The three keywords that a command begins with. -/
def verb (verb object : String) : List Part :=
  [.keyword verb (l.keyword 0 verb), .space (l.breaks 0), .keyword "ACCESS" (l.keyword 1 "ACCESS"),
    .space (l.breaks 1), .keyword object (l.keyword 2 object)]

/-- A further keyword and what stands behind it. -/
def clause (n : ℕ) (s : String) (p : Part) : List Part :=
  [.space (l.breaks (2 * n)), .keyword s (l.keyword (n + 2) s), .space (l.breaks (2 * n + 1)), p]

/-- Names in parentheses, from the gap in front of them on. -/
def columns (n : ℕ) (ns : Names) : List Part :=
  [.gap (l.gaps (3 * n)), .text (utf8 "("), .gap (l.gaps (3 * n + 1)), .word ns.first,
    .others (l.listed n ns.others), .gap (l.gaps (3 * n + 2)), .text (utf8 ")")]

/-- The parts of the clause that lists roles by their permissions. -/
def havingParts : Having → List Part
  | .one p => clause l 1 "WITH" (.word p)
  | .all ps => clause l 1 "WITH" (.keyword "ALL" (l.keyword 4 "ALL")) ++ columns l 0 ps
  | .any ps => clause l 1 "WITH" (.keyword "ANY" (l.keyword 4 "ANY")) ++ columns l 0 ps

def sideKeyword : Side → String
  | .source => "FROM"
  | .target => "TO"

/-- The text of a command up to its query. -/
def parts (l : Layout q) : Command → List Part
  | enableAccessControl t => verb l "ENABLE" "CONTROL" ++ [.space (l.breaks 2), .word t]
  | createAccessPermission p t o =>
      verb l "CREATE" "PERMISSION" ++ [.space (l.breaks 8), .word p] ++ clause l 1 "ON" (.word t) ++
        clause l 2 "FOR" (.word o)
  | createAccessRole r ps =>
      verb l "CREATE" "ROLE" ++ [.space (l.breaks 8), .word r] ++
        clause l 1 "WITH" (.word ps.first) ++ [.others (l.listed 0 ps.others)]
  | createAccessInheritance f fs t ts _ =>
      verb l "CREATE" "INHERITANCE" ++ clause l 1 "FROM" (.word f) ++ columns l 0 fs ++
        [.gap (l.gaps 9), .keyword "TO" (l.keyword 4 "TO"), .space (l.breaks 4), .word t] ++
        columns l 1 ts
  | listAccessPermission none => verb l "LIST" "PERMISSION"
  | listAccessPermission (some t) => verb l "LIST" "PERMISSION" ++ clause l 1 "ON" (.word t)
  | listAccessRoleBinding t _ =>
      verb l "LIST" "ROLE" ++ [.space (l.breaks 8), .keyword "BINDING" (l.keyword 5 "BINDING")] ++
        clause l 1 "ON" (.word t) ++ [.gap (l.gaps 0)]
  | listAccessRole none => verb l "LIST" "ROLE"
  | listAccessRole (some h) => verb l "LIST" "ROLE" ++ havingParts l h
  | listAccessInheritance none => verb l "LIST" "INHERITANCE"
  | listAccessInheritance (some (side, t)) =>
      verb l "LIST" "INHERITANCE" ++ clause l 1 (sideKeyword side) (.word t)
  | bindAccessRole r p t _ =>
      verb l "BIND" "ROLE" ++ [.space (l.breaks 8), .word r] ++ clause l 1 "TO" (.principal p) ++
        clause l 2 "ON" (.word t) ++ [.gap (l.gaps 0)]
  | unbindAccessRole r p t _ =>
      verb l "UNBIND" "ROLE" ++ [.space (l.breaks 8), .operand r] ++ clause l 1 "FROM" (.operand p) ++
        clause l 2 "ON" (.operand t) ++ [.gap (l.gaps 0)]

end Parts

variable (c : Command)

/-- A command as it is laid out. -/
def text (l : Layout c.query) : Bytes := textOf (c.parts l) ++ enclose c.query l.copied

/-- No white space stands in front of a comma of the list. -/
def TightCommas {q : Option Query} (l : Layout q) (n : ℕ) (ns : Names) : Prop :=
  ∀ i < ns.others.length, (l.commas n i).1.bytes = []

/-- Neither does it behind the parenthesis that opens, and in front of the one that closes. -/
def TightColumns {q : Option Query} (l : Layout q) (n : ℕ) (ns : Names) : Prop :=
  (l.gaps (3 * n + 1)).bytes = [] ∧ TightCommas l n ns ∧ (l.gaps (3 * n + 2)).bytes = []

/-- The layouts that the patterns have room for. -/
def Tight (l : Layout c.query) : Prop :=
  match c with
  | createAccessRole _ ps => TightCommas l 0 ps
  | createAccessInheritance _ fs _ ts _ =>
      TightColumns l 0 fs ∧ (l.gaps 9).bytes ≠ [] ∧ TightColumns l 1 ts
  | listAccessRole (some (.all ps)) => TightColumns l 0 ps
  | listAccessRole (some (.any ps)) => TightColumns l 0 ps
  | _ => True

/-- The part of the SQL that is copied from the command, without its white space. -/
def bare : Option Bytes :=
  match c with
  | createAccessRole _ ps => some ps.quoted
  | listAccessRole (some (.all ps)) => some ps.quoted
  | listAccessRole (some (.any ps)) => some ps.quoted
  | _ => c.query.map Query.bytes

/-- The SQL in front of what is copied. -/
def front : Command → List Part
  | enableAccessControl t =>
      formatParts (fun n => if n = 1 then .word t else .text []) (utf8 enableFormat)
  | createAccessPermission p t o =>
      formatParts (fun n => if n = 1 then .word p else if n = 2 then .word t
        else if n = 3 then .word o else .text []) (utf8 permissionFormat)
  | createAccessRole r _ =>
      [.text (utf8 "INSERT INTO __access_roles__ (_name, _permissions) VALUES ('"),
        .word (lowerWord r), .text (utf8 "', ARRAY[")]
  | createAccessInheritance f fs t ts _ =>
      [.text (utf8 "INSERT INTO __access_inheritances__ (_src, _dst, _src_query) VALUES ('"),
        .word f, .text (utf8 "', '"), .word t, .text (utf8 "', '" ++ utf8 "SELECT id FROM "), .word f,
        .text (utf8 " WHERE "), .word fs.first, .text (utf8 " = $1."), .word ts.first,
        .conditions (fs.others.zip ts.others), .text (utf8 "')")]
  | listAccessPermission none => [.text (utf8 "SELECT * FROM __access_permissions__")]
  | listAccessPermission (some t) =>
      [.text (utf8 "SELECT * FROM __access_permissions__" ++ utf8 " WHERE _relation = '"), .word t,
        .text (utf8 "'::REGCLASS")]
  | listAccessRoleBinding t _ =>
      [.text (utf8 "SELECT *   FROM "), .word t,
        .text (utf8 "__access_bindings__   WHERE _id = ")]
  | listAccessRole none => [.text (utf8 "SELECT * FROM __access_roles__")]
  | listAccessRole (some (.one p)) =>
      [.text (utf8 "SELECT * FROM __access_roles__" ++ utf8 " WHERE _permissions @> ARRAY['"),
        .word (lowerWord p), .text (utf8 "']")]
  | listAccessRole (some (.all _)) =>
      [.text (utf8 "SELECT * FROM __access_roles__" ++ utf8 " WHERE _permissions @> ARRAY[")]
  | listAccessRole (some (.any _)) =>
      [.text (utf8 "SELECT * FROM __access_roles__" ++ utf8 " WHERE _permissions && ARRAY[")]
  | listAccessInheritance none => [.text (utf8 "SELECT * FROM __access_inheritances__")]
  | listAccessInheritance (some (.source, t)) =>
      [.text (utf8 "SELECT * FROM __access_inheritances__" ++ utf8 " WHERE _src = '"), .word t,
        .text (utf8 "'::REGCLASS")]
  | listAccessInheritance (some (.target, t)) =>
      [.text (utf8 "SELECT * FROM __access_inheritances__" ++ utf8 " WHERE _dst = '"), .word t,
        .text (utf8 "'::REGCLASS")]
  | bindAccessRole _ _ t _ =>
      [.text (utf8
        "WITH r AS   (INSERT INTO __access_binding_refs__ (_origin, _origin_id)       VALUES ('"),
        .word t, .text (utf8 "', ")]
  | unbindAccessRole _ _ t _ =>
      [.text (utf8 "DELETE FROM __access_binding_refs__ r USING "), .operand t,
        .text (utf8 "__access_bindings__ b WHERE b._id = ")]

/-- The SQL behind what is copied. -/
def behind : Command → List Part
  | createAccessRole r _ =>
      [.text (utf8 "]);" ++ (utf8 "INSERT INTO __access_roles_denorm__ (_name, _permission)" ++
        (utf8 " SELECT _name, unnest(_permissions)" ++ (utf8 " FROM __access_roles__" ++
          utf8 " WHERE _name = '")))), .word (lowerWord r), .text (utf8 "'")]
  | listAccessRole (some (.all _)) => [.text (utf8 "]")]
  | listAccessRole (some (.any _)) => [.text (utf8 "]")]
  | bindAccessRole r p t _ =>
      [.text (utf8 ")       RETURNING *)INSERT INTO "), .word t,
        .text (utf8 "__access_bindings__ (_role, _principal, _id, _ref)   SELECT '"), .word r,
        .text (utf8 "', '"), .principal p, .text (utf8 "', _origin_id, _id   FROM r")]
  | unbindAccessRole r p _ _ =>
      [.text (utf8 " AND b._role = "), .value r, .text (utf8 " AND b._principal = "), .value p,
        .text (utf8 " AND b._inheritance = 0 AND b._ref = r._id")]
  | _ => []

/-- The SQL of a command with the part that is copied. -/
def sql (p : Bytes) : Bytes := textOf c.front ++ (enclose c.query p ++ textOf c.behind)

/-- The part is that of the command up to white space. -/
def Copies (p : Bytes) : Prop :=
  match c.bare with
  | none => p = []
  | some b => strip p = b

/-- The command is recognised in both layouts, and is translated to the same SQL up to white space
in the part that is copied. -/
def SameSql (file : Bytes) (l l' : Layout c.query) : Prop :=
  ∃ p p', c.Copies p ∧ c.Copies p' ∧ translate file (c.text l) = (c.sql p, .noError) ∧
    translate file (c.text l') = (c.sql p', .noError)

end Command

end PgFort.CommandTexts
