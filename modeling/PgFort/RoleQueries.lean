import PgFort.CommentTokens
import PgFort.DequeRefinement
import PgFort.SqlLexer
import PgFort.RoleTracking

namespace PgFort.RoleQueries

open PgFort.Framing
open PgFort.JsonAccess
open PgFort.Conn
open PgFort.Scanning
open PgFort.SqlLexer
open PgFort.CommentTokens
open PgFort.Stateful.Action
open PgFort.Plugins
open PgFort.StateMachine hiding step
open PgFort.PersistentDeque (readConstant)
open PgFort.RoleTracking (parameter_setParameter)
open PgFort.DequeRefinement (readConstant_quote length_of_readConstant)

/-- The value of a string constant. -/
def unquoted : Bytes → Bytes
  | [] => []
  | [c] => [c]
  | c :: d :: s => if c = 39 ∧ d = 39 then 39 :: unquoted s else c :: unquoted (d :: s)

def selectHead : Bytes :=
  utf8 "SELECT rolsuper FROM pg_roles WHERE rolname = "

def selectTokens : List Token :=
  [⟨.word, utf8 "SELECT"⟩, ⟨.word, utf8 "rolsuper"⟩, ⟨.word, utf8 "FROM"⟩,
    ⟨.word, utf8 "pg_roles"⟩, ⟨.word, utf8 "WHERE"⟩, ⟨.word, utf8 "rolname"⟩, ⟨.operator, utf8 "="⟩]

/-- A text is the one `SELECT`, for the rights of the user. -/
def OneSelect (query user : Bytes) : Prop :=
  ∃ body, tokens query = some (selectTokens ++ [⟨.literal .plain, body⟩]) ∧ unquoted body = user

/-- The pool's connection breaks at a statement, and answers any other. -/
def breakingAt (query : Bytes) (io : Io) : Io :=
  { io with exec1 := fun text => if text = query then .error .aborted else .ok [] }

/-- The action sends the statement when this is the session's user. -/
def Sends {α : Type} (x : Io → Action α) (query user : Bytes) : Prop :=
  ∃ io s s', x (breakingAt query io) s = (.error .aborted, s') ∧ s'.parameter "user" = user

/-- The statement is sent for a user that a startup message or a `SET ROLE` has named. -/
inductive Asked (query user : Bytes) : Prop where
  | initiate (h : Sends initiate query user)
  | updateParameters (lib : Externals) (h : Sends (updateParametersPlugIn lib) query user)

section Lexing

variable {s t body body' rest : Bytes} {k k' : Kind} {ps : List Piece} {ts : List Token}

theorem unquoted_pair (s : Bytes) : unquoted (39 :: 39 :: s) = 39 :: unquoted s := by
  rw [unquoted, if_pos ⟨rfl, rfl⟩]

theorem unquoted_cons {c : UInt8} (hc : c ≠ 39) (s : Bytes) : unquoted (c :: s) = c :: unquoted s := by
  cases s with
  | nil => rfl
  | cons d s => rw [unquoted, if_neg fun h => hc h.1]

theorem length_unquoted_le (s : Bytes) : (unquoted s).length ≤ s.length := by
  fun_induction unquoted s with
  | case1 => exact le_rfl
  | case2 c => exact le_rfl
  | case3 c d s hpair ih =>
      simp only [List.length_cons] at ih ⊢
      omega
  | case4 c d s hpair ih =>
      simp only [List.length_cons] at ih ⊢
      omega

theorem length_unquoted_append_le (s t : Bytes) :
    (unquoted (s ++ t)).length ≤ (unquoted s).length + t.length := by
  fun_induction unquoted s with
  | case1 =>
      rw [List.nil_append, List.length_nil, Nat.zero_add]
      exact length_unquoted_le t
  | case2 c =>
      have hle := length_unquoted_le (c :: t)
      simp only [List.cons_append, List.nil_append, List.length_cons, List.length_nil] at hle ⊢
      omega
  | case3 c d s hpair ih =>
      obtain ⟨rfl, rfl⟩ := hpair
      rw [List.cons_append, List.cons_append, unquoted_pair, List.length_cons, List.length_cons]
      omega
  | case4 c d s hpair ih =>
      rw [List.cons_append, List.cons_append, unquoted, if_neg hpair, List.length_cons,
        List.length_cons]
      rw [List.cons_append] at ih
      omega

theorem scan_opened (s : Bytes) :
    (∃ body rest, s = body ++ 39 :: rest ∧ readConstant s = some (unquoted body, rest) ∧
      scan step (.opened .plain) s = (body ++ [39], .closed .plain, rest)) ∨
    (readConstant s = none ∧ accepts (scan step (.opened .plain) s).2.1 = false) := by
  have hquote : ∀ ahead, step (.opened .plain) 39 ahead = some (.closed .plain) := fun _ => rfl
  fun_induction readConstant s with
  | case1 => exact .inr ⟨rfl, rfl⟩
  | case2 => exact .inl ⟨[], [], rfl, rfl, rfl⟩
  | case3 text ih =>
      have hscan : scan step (.opened .plain) (39 :: 39 :: text) =
          (39 :: 39 :: (scan step (.opened .plain) text).1,
            (scan step (.opened .plain) text).2.1, (scan step (.opened .plain) text).2.2) := by
        rw [scan_cons_of_step (hquote _)]
        have hdoubled : ∀ ahead, step (.closed .plain) 39 ahead = some (.opened .plain) := fun _ => rfl
        rw [scan_cons_of_step (hdoubled _)]
      rcases ih with ⟨body, rest, htext, hread, hends⟩ | ⟨hread, hends⟩
      · refine .inl ⟨39 :: 39 :: body, rest, by rw [htext]; rfl, ?_, ?_⟩
        · rw [hread, unquoted_pair]
          rfl
        · rw [hscan, hends]
          rfl
      · refine .inr ⟨by rw [hread]; rfl, ?_⟩
        rw [hscan]
        exact hends
  | case4 d text hd =>
      refine .inl ⟨[], d :: text, rfl, rfl, ?_⟩
      have hstop : step (.closed .plain) d text.head? = none := by
        simp [step, next, endsAtComment, hd]
      rw [scan_cons_of_step (hquote _), scan, hstop]
      rfl
  | case5 c text hc ih =>
      have hstep : step (.opened .plain) c text.head? = some (.opened .plain) := by
        simp [step, next, endsAtComment, hc]
      rcases ih with ⟨body, rest, htext, hread, hends⟩ | ⟨hread, hends⟩
      · refine .inl ⟨c :: body, rest, by rw [htext]; rfl, ?_, ?_⟩
        · rw [hread, unquoted_cons hc]
          rfl
        · rw [scan_cons_of_step hstep, hends]
          rfl
      · refine .inr ⟨by rw [hread]; rfl, ?_⟩
        rw [scan_cons_of_step hstep]
        exact hends

/-- What a token has of the text that it is read from, at least. -/
def weight (t : Token) : Nat :=
  if t.text = utf8 ".." ∨ t.text = utf8 "$" then 0 else t.text.length

def weights : List Token → Nat
  | [] => 0
  | t :: ts => weight t + weights ts

theorem weight_le (t : Token) : weight t ≤ t.text.length := by
  rw [weight]
  split
  · exact Nat.zero_le _
  · exact le_rfl

theorem weights_append (us ts : List Token) : weights (us ++ ts) = weights us + weights ts := by
  induction us with
  | nil => rw [List.nil_append, weights, Nat.zero_add]
  | cons u us ih => rw [List.cons_append, weights, weights, ih, Nat.add_assoc]

theorem weights_reverse (ts : List Token) : weights ts.reverse = weights ts := by
  induction ts with
  | nil => rfl
  | cons t ts ih =>
      rw [List.reverse_cons, weights_append, ih, weights, weights, weights]
      omega

theorem weights_map_le (run : Bytes) :
    weights (run.map fun c => ⟨.operator, [c]⟩) ≤ run.length := by
  induction run with
  | nil => exact le_rfl
  | cons c run ih =>
      have hle := weight_le ⟨.operator, [c]⟩
      rw [List.length_singleton] at hle
      rw [List.map_cons, weights, List.length_cons]
      omega

theorem weights_operators_le (run : Bytes) : weights (operators run) ≤ run.length := by
  rw [operators]
  split
  · exact (Nat.add_zero _).trans_le (weight_le _)
  · generalize max 1 (run.length - _) = n
    have hfirst := weight_le ⟨.operator, run.take n⟩
    have hrest := weights_map_le (run.drop n)
    have hlength := congrArg List.length (List.take_append_drop n run)
    rw [List.length_append] at hlength
    rw [weights]
    exact (Nat.add_le_add hfirst hrest).trans_eq hlength

theorem between_le (t : Bytes) : (between t).length + 2 ≤ t.length ∨ between t = [] := by
  have hdrop := (List.dropWhile_sublist (l := t) fun c => c != 39 && c != 34).length_le
  have hlength : (between t).length =
      (t.dropWhile fun c => c != 39 && c != 34).length - 1 - 1 := by
    rw [between, List.length_dropLast, List.length_tail]
  cases hbetween : between t with
  | nil => exact .inr rfl
  | cons c s =>
      rw [hbetween, List.length_cons] at hlength
      rw [List.length_cons]
      left
      omega

theorem weights_emit_le (t : Bytes) (q : State) : weights (emit t q) ≤ t.length := by
  have hone : ∀ kind : Kind, ∀ run : Bytes, run.length ≤ t.length →
      weights [⟨kind, run⟩] ≤ t.length := fun kind run hrun =>
    (Nat.add_zero _).trans_le ((weight_le _).trans hrun)
  have hword : weights (⟨.word, t.take 1⟩ :: operators (t.drop 1)) ≤ t.length := by
    have hfirst := weight_le ⟨.word, t.take 1⟩
    have hrest := weights_operators_le (t.drop 1)
    have hlength := congrArg List.length (List.take_append_drop 1 t)
    rw [List.length_append] at hlength
    rw [weights]
    exact (Nat.add_le_add hfirst hrest).trans_eq hlength
  have hbetween : (between t).length ≤ t.length := by
    rcases between_le t with hle | hnil
    · omega
    · rw [hnil]
      exact Nat.zero_le _
  cases q with
  | letterUAmp => exact hword
  | letterUOperator => exact hword
  | operator => exact weights_operators_le t
  | integerDots =>
      refine hone _ _ ?_
      rw [List.length_dropLast, List.length_dropLast]
      omega
  | tag _ =>
      have hdrop : weights [⟨.word, t.drop 1⟩] ≤ t.length :=
        hone _ _ (List.drop_sublist 1 t).length_le
      exact (Nat.zero_add _).trans_le hdrop
  | closed k => exact hone _ _ hbetween
  | nameClosed u => exact hone _ _ hbetween
  | _ => exact hone _ t le_rfl

theorem exists_of_foldlM_add {acc us : List Token} {k : Kind} {body : Bytes}
    (h : ps.foldlM add (acc ++ ⟨k, body⟩ :: ts) = some us) :
    ∃ acc' x, us = acc' ++ ⟨k, body ++ x⟩ :: ts ∧
      (x = [] ∧ weights acc' ≤ weights acc + (textOf ps).length ∨
        x.length + weights acc' + 1 ≤ weights acc + (textOf ps).length) := by
  induction ps generalizing acc body with
  | nil =>
      obtain rfl := Option.some.inj h
      exact ⟨acc, [], by rw [List.append_nil], .inl ⟨rfl, Nat.le_add_right _ _⟩⟩
  | cons p ps ih =>
      have htext : (textOf (p :: ps)).length = p.text.length + (textOf ps).length := by
        rw [textOf, List.flatMap_cons, List.length_append]
        rfl
      rw [List.foldlM_cons] at h
      obtain ⟨ts₁, hadd, hrest⟩ := Option.bind_eq_some_iff.mp h
      have hsame (hts₁ : ts₁ = acc ++ ⟨k, body⟩ :: ts) : ∃ acc' x,
          us = acc' ++ ⟨k, body ++ x⟩ :: ts ∧
            (x = [] ∧ weights acc' ≤ weights acc + (textOf (p :: ps)).length ∨
              x.length + weights acc' + 1 ≤ weights acc + (textOf (p :: ps)).length) := by
        rw [hts₁] at hrest
        obtain ⟨acc', x, hus, hle⟩ := ih hrest
        exact ⟨acc', x, hus, hle.imp (fun hle => ⟨hle.1, by omega⟩) fun hle => by omega⟩
      cases p with
      | blank c => exact hsame (Option.some.inj hadd).symm
      | lineComment t => exact hsame (Option.some.inj hadd).symm
      | blockComment t => exact hsame (Option.some.inj hadd).symm
      | broken t => exact absurd hadd (by simp [add])
      | lexeme continued t q =>
          have hpiece : (Piece.lexeme continued t q).text.length = t.length := rfl
          cases continued with
          | false =>
              obtain rfl := Option.some.inj hadd
              rw [← List.append_assoc] at hrest
              obtain ⟨acc', x, hus, hle⟩ := ih hrest
              have hemit := weights_emit_le t q
              rw [weights_append, weights_reverse] at hle
              exact ⟨acc', x, hus, hle.imp (fun hle => ⟨hle.1, by omega⟩) fun hle => by omega⟩
          | true =>
              cases acc with
              | nil =>
                  obtain rfl := Option.some.inj hadd
                  have hrest' : ps.foldlM add ([] ++ ⟨k, body ++ between t⟩ :: ts) = some us := hrest
                  obtain ⟨acc', x, hus, hle⟩ := ih hrest'
                  refine ⟨acc', between t ++ x, by rw [hus, List.append_assoc], ?_⟩
                  rw [List.length_append]
                  rcases between_le t with hless | hempty
                  · right
                    rcases hle with ⟨rfl, hle⟩ | hle
                    · rw [List.length_nil]
                      omega
                    · omega
                  · rw [hempty, List.nil_append, List.length_nil]
                    exact hle.imp (fun hle => ⟨hle.1, by omega⟩) fun hle => by omega
              | cons u acc =>
                  obtain ⟨kind, text⟩ := u
                  obtain rfl := Option.some.inj hadd
                  have hrest' : ps.foldlM add
                      ((⟨kind, text ++ between t⟩ :: acc) ++ ⟨k, body⟩ :: ts) = some us := hrest
                  obtain ⟨acc', x, hus, hle⟩ := ih hrest'
                  have hweight : weight ⟨kind, text ++ between t⟩ ≤ weight ⟨kind, text⟩ + t.length := by
                    rcases between_le t with hless | hempty
                    · have hlong := weight_le ⟨kind, text ++ between t⟩
                      have hshort : text.length ≤ weight ⟨kind, text⟩ + 2 := by
                        rw [weight]
                        split
                        · rename_i heq
                          rcases heq with heq | heq
                          · exact (congrArg List.length heq).trans_le (by decide +kernel)
                          · exact (congrArg List.length heq).trans_le (by decide +kernel)
                        · exact Nat.le_add_right _ _
                      rw [List.length_append] at hlong
                      omega
                    · rw [hempty, List.append_nil]
                      exact Nat.le_add_right _ _
                  rw [weights] at hle
                  rw [weights]
                  exact ⟨acc', x, hus, hle.imp (fun hle => ⟨hle.1, by omega⟩) fun hle => by omega⟩

theorem continued_of_foldlM_add {tail : List Token}
    (h : ps.foldlM add (⟨k, body⟩ :: ts) = some (tail ++ ⟨k', body'⟩ :: ts)) :
    k' = k ∧ ∃ x, body' = body ++ x ∧ (x = [] ∧ weights tail ≤ (textOf ps).length ∨
      x.length + weights tail + 1 ≤ (textOf ps).length) := by
  have h' : ps.foldlM add ([] ++ ⟨k, body⟩ :: ts) = some (tail ++ ⟨k', body'⟩ :: ts) := h
  obtain ⟨acc', x, hus, hle⟩ := exists_of_foldlM_add h'
  obtain ⟨rfl, htokens⟩ := List.append_inj' hus rfl
  obtain ⟨rfl, rfl⟩ := Token.mk.inj (List.cons.inj htokens).1
  rw [weights, Nat.zero_add] at hle
  exact ⟨rfl, x, rfl, hle⟩

end Lexing

section Query

variable {s body rest user : Bytes}

def headPieces : List Piece :=
  (pieces (selectHead ++ [39])).dropLast

set_option maxRecDepth 4000 in
theorem piecesUpTo_selectHead (n : Nat) (s : Bytes) :
    piecesUpTo (n + 14) none (selectHead ++ 39 :: s) = headPieces ++ piecesUpTo n none (39 :: s) := by
  have hhead : selectHead =
      [83, 69, 76, 69, 67, 84, 32, 114, 111, 108, 115, 117, 112, 101, 114, 32, 70, 82, 79, 77, 32,
        112, 103, 95, 114, 111, 108, 101, 115, 32, 87, 72, 69, 82, 69, 32, 114, 111, 108, 110, 97,
        109, 101, 32, 61, 32] := by
    decide +kernel
  rw [hhead]
  rfl

theorem foldlM_headPieces : headPieces.foldlM add [] = some selectTokens.reverse := by
  decide +kernel

theorem between_quotes (body : Bytes) : between (39 :: (body ++ [39])) = body := by
  rw [between, List.dropWhile_cons_of_neg (by decide), List.tail_cons, List.dropLast_concat]

theorem scan_initial (s : Bytes) :
    scan step (.initial none) (39 :: s) =
      (39 :: (scan step (.opened .plain) s).1, (scan step (.opened .plain) s).2.1,
        (scan step (.opened .plain) s).2.2) := by
  refine scan_cons_of_step ?_
  have hintroduces : ∀ ahead, introduces 39 ahead = false := fun _ => rfl
  rw [step, hintroduces, Bool.and_false]
  rfl

theorem first_quote (s : Bytes) : first none (39 :: s) = some (lexeme none (39 :: s)) := by
  rw [first, if_neg (by decide), if_neg (by simp), if_neg (by simp)]

/-- The tokens of a query with a constant that ends, and those of one in which it does not. The text
in front of the constant is read in so many pieces. -/
theorem tokens_quoted {head : Bytes} {hps : List Piece} {ts : List Token} {k : Nat}
    (hhead : ∀ n s, piecesUpTo (n + k) none (head ++ 39 :: s) = hps ++ piecesUpTo n none (39 :: s))
    (hk : k ≤ head.length) (hts : hps.foldlM add [] = some ts) (s : Bytes) :
    (∃ body rest n, s = body ++ 39 :: rest ∧ readConstant s = some (unquoted body, rest) ∧
      rest.length ≤ n ∧ tokens (head ++ 39 :: s) =
        ((piecesUpTo n (some (.plain, false)) rest).foldlM add (⟨.literal .plain, body⟩ :: ts)).map
          List.reverse) ∨
    (readConstant s = none ∧ tokens (head ++ 39 :: s) = none) := by
  have hlength : (head ++ 39 :: s).length = s.length + (head.length - k) + 1 + k := by
    rw [List.length_append, List.length_cons]
    omega
  have hpieces : pieces (head ++ 39 :: s) = hps ++
      ((lexeme none (39 :: s)).1 :: piecesUpTo (s.length + (head.length - k))
        (after none (lexeme none (39 :: s)).1) (lexeme none (39 :: s)).2) := by
    rw [pieces, hlength, hhead, piecesUpTo, first_quote]
  have hcontinued : continuedBy none 39 = none := rfl
  rcases scan_opened s with ⟨body, rest, hs, hread, hscan⟩ | ⟨hread, hbroken⟩
  · have hlexeme : lexeme none (39 :: s) =
        (.lexeme false (39 :: (body ++ [39])) (.closed .plain), rest) := by
      rw [lexeme, List.headD_cons, hcontinued, scan_initial, hscan]
      rfl
    refine .inl ⟨body, rest, s.length + (head.length - k), hs, hread, ?_, ?_⟩
    · rw [hs, List.length_append, List.length_cons]
      omega
    · rw [tokens, hpieces, hlexeme, List.foldlM_append, hts]
      simp only [Option.bind_eq_bind, Option.bind_some, List.foldlM_cons, add, emit, between_quotes]
      rfl
  · have hlexeme : lexeme none (39 :: s) = (.broken (39 :: s), []) := by
      rw [lexeme, List.headD_cons, hcontinued, scan_initial]
      simp only [hbroken, Bool.false_eq_true, if_false]
    refine .inr ⟨hread, ?_⟩
    rw [tokens, hpieces, hlexeme, List.foldlM_append, hts]
    rfl

theorem not_mem_of_continued {body rest constant more x : Bytes}
    (hread : readConstant (constant ++ 39 :: more) = some (unquoted body, rest))
    (hvalue : unquoted (body ++ x) = constant)
    (hle : x = [] ∧ more.length ≤ rest.length ∨ x.length + more.length + 1 ≤ rest.length) :
    39 ∉ constant := by
  have hlength := length_of_readConstant hread
  have hshort := length_unquoted_append_le body x
  rw [hvalue] at hshort
  rw [List.length_append, List.length_cons] at hlength
  rcases hle with ⟨rfl, hle⟩ | hle
  · rw [List.append_nil] at hvalue
    rw [hvalue] at hlength
    exact List.count_eq_zero.mp (by omega)
  · omega

/-- The name of a user is read as it was put between the quotes exactly if it has none. -/
theorem oneSelect_rolsuperQuery_iff : OneSelect (rolsuperQuery user) user ↔ 39 ∉ user := by
  have hquery : rolsuperQuery user = selectHead ++ 39 :: (user ++ [39]) := by
    have hhead : utf8 "SELECT rolsuper FROM pg_roles WHERE rolname = '" = selectHead ++ [39] := by
      decide +kernel
    have hend : utf8 "'" = [39] := by decide +kernel
    rw [rolsuperQuery, hhead, hend, List.append_assoc, List.append_assoc]
    rfl
  have hlong : 14 ≤ selectHead.length := by decide +kernel
  rw [OneSelect, hquery]
  rcases tokens_quoted piecesUpTo_selectHead hlong foldlM_headPieces (user ++ [39]) with
    ⟨body, rest, n, hs, hread, hn, htokens⟩ | ⟨hread, hnone⟩
  · constructor
    · rintro ⟨body', htokens', hvalue⟩
      rw [htokens] at htokens'
      obtain ⟨ts, hfold, hreverse⟩ := Option.map_eq_some_iff.mp htokens'
      obtain rfl : ts = [] ++ ⟨.literal .plain, body'⟩ :: selectTokens.reverse := by
        rw [← List.reverse_reverse ts, hreverse, List.reverse_append]
        rfl
      obtain ⟨-, x, rfl, hshort⟩ := continued_of_foldlM_add hfold
      rw [textOf_piecesUpTo hn] at hshort
      exact not_mem_of_continued hread hvalue hshort
    · intro hquote
      have hwhole := @readConstant_quote user [] hquote (by simp)
      rw [hread] at hwhole
      obtain ⟨hvalue, rfl⟩ := Prod.mk.inj (Option.some.inj hwhole)
      refine ⟨body, ?_, hvalue⟩
      rw [htokens, piecesUpTo_nil]
      simp
  · rw [hnone]
    constructor
    · rintro ⟨body, h, -⟩
      exact absurd h (by simp)
    · intro hquote
      have hwhole := @readConstant_quote user [] hquote (by simp)
      rw [hread] at hwhole
      exact absurd hwhole (by simp)

end Query

section Sites

variable {lib : Externals} {io : Io} {s : Session} {query user : Bytes}

theorem query_of_breakingAt {text : Bytes} (h : (breakingAt query io).exec1 text = .error .aborted) :
    query = text := by
  by_contra hne
  simp [breakingAt, Ne.symm hne] at h

theorem query_of_sends {α : Type} {x : Io → Action α}
    (hx : ∀ io s, wp (x io) (fun _ _ => True)
      (fun f s' => f = .aborted → io.exec1 (rolsuperQuery (s'.parameter "user")) = .error .aborted) s)
    (h : Sends x query user) : query = rolsuperQuery user := by
  obtain ⟨io, s, s', hrun, rfl⟩ := h
  have hwp := hx (breakingAt query io) s
  rw [wp, hrun] at hwp
  exact query_of_breakingAt (hwp rfl)

theorem wp_initiate_query :
    wp (initiate io) (fun _ _ => True)
      (fun f s' => f = .aborted → io.exec1 (rolsuperQuery (s'.parameter "user")) = .error .aborted)
      s := by
  rw [wp_initiate]
  refine ⟨fun _ => trivial, fun _ => ⟨fun parameters _ => ⟨fun _ _ => trivial, ?_⟩, ?_⟩⟩
  · rintro f hf rfl
    exact hf
  · rintro f hf rfl
    exact nomatch eq_astray_of_startupParameters hf

theorem wp_updateParameters_query :
    wp (updateParametersPlugIn lib io) (fun _ _ => True)
      (fun f s' => f = .aborted → io.exec1 (rolsuperQuery (s'.parameter "user")) = .error .aborted)
      s := by
  simp only [updateParametersPlugIn, wp_bind, wp_state, wp_ite, wp_pure]
  refine ⟨fun _ => trivial, fun _ => ?_⟩
  cases findNode "VariableSetStmt" s.context.query.json with
  | none => exact trivial
  | some n =>
      simp only [wp_bind, wp_onQuery, wp_ite, wp_pure, wp_modify, wp_ofExcept]
      refine ⟨fun name json _ => ⟨fun _ => trivial, fun _ => ⟨fun _ => trivial, fun _ =>
        ⟨fun role json' _ => ⟨fun _ _ => trivial, ?_⟩, ?_⟩⟩⟩, ?_⟩
      · rintro f hf rfl
        rw [parameter_setParameter]
        exact hf
      · intro e _ hthrown
        exact absurd hthrown (by simp)
      · intro e _ hthrown
        exact absurd hthrown (by simp)

theorem query_of_asked (h : Asked query user) : query = rolsuperQuery user := by
  cases h with
  | initiate h => exact query_of_sends (fun _ _ => wp_initiate_query) h
  | updateParameters lib h => exact query_of_sends (fun _ _ => wp_updateParameters_query) h

end Sites

variable {query user : Bytes}

theorem oneSelect_iff (h : Asked query user) : OneSelect query user ↔ 39 ∉ user := by
  rw [query_of_asked h]
  exact oneSelect_rolsuperQuery_iff

/-- A startup message with one parameter, the user. -/
def startup (user : Bytes) : Session :=
  { Session.new .empty with
    context.request := (Buffer.new.recvFrom
      [[0, 0, 0, 0, 0, 3, 0, 0] ++ utf8 "user" ++ [0] ++ user ++ [0, 0]] .wouldBlock).1 }

def injection : Bytes := utf8 "x'; DROP TABLE documents; --"

theorem asked_of_startup {s : Session} (hlong : ¬s.context.request.size ≤ 8)
    (huser : (startupParameters s.context.request.buf).toOption.map (fun parameters =>
      (parameters.foldl setStartupParameter s).parameter "user") = some user) :
    Asked (rolsuperQuery user) user := by
  obtain ⟨parameters, hparameters, rfl⟩ := Option.map_eq_some_iff.mp huser
  refine .initiate ⟨receiving [], s, _, ?_, rfl⟩
  rw [initiate, state_bind, if_neg hlong]
  refine (ofExcept_bind_ok (KeyedTraversal.eq_ok_of_toOption hparameters)).trans ?_
  refine ofExcept_bind_error ?_
  exact if_pos rfl

theorem asked_startup_sam : Asked (rolsuperQuery (utf8 "sam")) (utf8 "sam") :=
  asked_of_startup (s := startup (utf8 "sam")) (by decide +kernel) (by decide +kernel)

theorem oneSelect_startup_sam :
    OneSelect (rolsuperQuery (utf8 "sam")) (utf8 "sam") ↔ 39 ∉ utf8 "sam" :=
  oneSelect_iff asked_startup_sam

/-- Behind the quote in the name, the query goes on with a second statement. -/
theorem not_oneSelect_injection :
    Asked (rolsuperQuery injection) injection ∧ ¬ OneSelect (rolsuperQuery injection) injection := by
  refine ⟨asked_of_startup (s := startup injection) (by decide +kernel) (by decide +kernel), ?_⟩
  rw [oneSelect_rolsuperQuery_iff]
  decide +kernel

example : (tokens (rolsuperQuery injection)).map (fun ts => (ts.drop 8).map Token.text) =
    some [utf8 ";", utf8 "DROP", utf8 "TABLE", utf8 "documents", utf8 ";"] := by
  decide +kernel

end PgFort.RoleQueries
