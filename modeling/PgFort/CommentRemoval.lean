import PgFort.ProxyCommand

namespace PgFort.CommentRemoval

open PgFort.Framing
open PgFort.Conn
open PgFort.Regexes
open PgFort.ProxyCommand

/-- What follows the first end of a block comment. -/
def afterEnd : Bytes → Option Bytes
  | [] => none
  | c :: s => if [42, 47] <+: c :: s then some (s.drop 1) else afterEnd s

/-- What `.` stands for in an ECMAScript pattern. -/
def inLine (c : UInt8) : Bool := c != 13 && c != 10

/-- What the pass goes on with where it removes a comment. -/
def afterComment (s : Bytes) : Option Bytes :=
  if [45, 45] <+: s then some ((s.drop 2).dropWhile inLine)
  else if [47, 42] <+: s then afterEnd (s.drop 2)
  else none

theorem ways_exactly (l : String) (gs : Groups UInt8) (s : Bytes) :
    ways (exactly l) gs s = if utf8 l <+: s then [(gs, s.drop (utf8 l).length)] else [] :=
  ways_foldr_seq_char (utf8 l) s

theorem ways_line (gs : Groups UInt8) (s : Bytes) :
    (ways (.group 1 (.seq (exactly "--") (.star true (.char inLine)))) gs s).head?.map Prod.snd =
      if [45, 45] <+: s then some ((s.drop 2).dropWhile inLine) else none := by
  have hdashes : utf8 "--" = [45, 45] := by decide +kernel
  rw [ways, ways, ways_exactly, hdashes, List.head?_map, Option.map_map]
  split
  · rw [List.flatMap_singleton, head?_ways_star_char]
    rfl
  · rfl

theorem head?_flatMap_tails (gs : Groups UInt8) (s : Bytes) :
    ((s.tails.map fun t => (gs, t)).flatMap fun w : Way UInt8 =>
      ways (seqs [.ahead (exactly "*/"), exactly "*/"]) w.1 w.2).head?.map Prod.snd =
      afterEnd s := by
  have hend : utf8 "*/" = [42, 47] := by decide +kernel
  induction s with
  | nil => simp [seqs, ways, ways_exactly, hend, afterEnd]
  | cons c s ih =>
      rw [List.tails_cons, List.map_cons, List.flatMap_cons, afterEnd]
      by_cases hbegins : [42, 47] <+: c :: s
      · simp [seqs, ways, ways_exactly, hend, hbegins]
      · rw [if_neg hbegins, ← ih]
        simp [seqs, ways, ways_exactly, hend, hbegins]

theorem ways_block (gs : Groups UInt8) (s : Bytes) :
    (ways (.group 2 (seqs [exactly "/*", .star false (.char fun _ => true), .ahead (exactly "*/"),
      exactly "*/"])) gs s).head?.map Prod.snd =
      if [47, 42] <+: s then afterEnd (s.drop 2) else none := by
  have hopen : utf8 "/*" = [47, 42] := by decide +kernel
  have hseqs : seqs [exactly "/*", .star false (.char fun _ => true), .ahead (exactly "*/"),
      exactly "*/"] = .seq (exactly "/*") (.seq (.star false (.char fun _ => true))
        (seqs [.ahead (exactly "*/"), exactly "*/"])) := rfl
  rw [ways, hseqs, ways, ways_exactly, hopen, List.head?_map, Option.map_map]
  split
  · rw [List.flatMap_singleton, ways, ways_star_any, ← head?_flatMap_tails gs]
    rfl
  · rfl

theorem matchHere_comment (s : Bytes) :
    (matchHere comment s).map Match.after = afterComment s := by
  have hcomment : comment = .alt (.group 1 (.seq (exactly "--") (.star true (.char inLine))))
      (.group 2 (seqs [exactly "/*", .star false (.char fun _ => true), .ahead (exactly "*/"),
        exactly "*/"])) := rfl
  have hsnd : (matchHere comment s).map Match.after =
      (ways comment [] s).head?.map Prod.snd := by
    rw [matchHere, Option.map_map]
    rfl
  rw [hsnd, hcomment, ways, List.head?_append, Option.map_or, ways_line, ways_block, afterComment]
  split
  · rfl
  · rfl

theorem not_nullable_comment : comment.nullable = false := by
  decide +kernel

theorem removeComments_of_comment {s rest : Bytes} (h : afterComment s = some rest) :
    removeComments s = removeComments rest := by
  rw [← matchHere_comment] at h
  obtain ⟨m, hm, rfl⟩ := Option.map_eq_some_iff.mp h
  rw [removeComments, regexReplace, replace_of_matchHere not_nullable_comment hm]
  change (do
    let u ← regexReplace comment "" m.after
    return [] ++ u) = regexReplace comment "" m.after
  simp only [List.nil_append, bind_pure]

theorem removeComments_cons {c : UInt8} {s : Bytes} (h : afterComment (c :: s) = none) :
    removeComments (c :: s) = do
      let u ← removeComments s
      return c :: u := by
  rw [← matchHere_comment, Option.map_eq_none_iff] at h
  rw [removeComments, regexReplace]
  exact replace_cons_of_matchHere_none not_nullable_comment h

theorem removeComments_nil : removeComments [] = .ok [] := rfl

theorem exists_removeComments (s : Bytes) : ∃ t, removeComments s = .ok t :=
  Regexes.exists_replace not_nullable_comment (fun _ => ⟨_, rfl⟩) s

end PgFort.CommentRemoval
