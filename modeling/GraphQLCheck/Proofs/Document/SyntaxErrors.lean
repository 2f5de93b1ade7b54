import GraphQLCheck.Proofs.Document.Completion
import GraphQLCheck.Proofs.Document.Lookahead
import GraphQLCheck.Proofs.Document.Untracked
import GraphQLCheck.Proofs.Token.Locations

/-!
Where errors of documents are. An error is at the first token that does not fit
(`Document.read_error_location`). The tokens in front of it begin an accepted document: the source
is cut behind the last of them and goes on with fillers. With this token they do not, since a reader
that fails looks at no token behind the one it fails at, so that it fails wherever these tokens are
the first ones.
-/
namespace GraphQLCheck
open Reader

namespace Reader

variable {ε α β : Type} {p : ε → Prop} {f : α → β} {r : Reader ε α} {r' : Reader ε β} {j k : Nat}

theorem Settles.ending {c : Cursor} (h : Settles p j k (fun _ => r) c) :
    ∃ x taken rest, c.ahead = taken ++ rest ∧ r c = .ending (c.before rest) x ∧
      ∀ ls, (c.before ls).head = (c.before rest).head →
        r (c.before (taken ++ ls)) = .ending (c.before ls) x := by
  obtain ⟨x, taken, rest, hahead, -, hread⟩ := h
  have hend : ∀ ls, (c.before ls).head = (c.before rest).head →
      r (c.before (taken ++ ls)) = .ending (c.before ls) x :=
    fun ls hhead => hread (taken.length + 1) ls (by omega) hhead
  refine ⟨x, taken, rest, hahead, ?_, hend⟩
  rw [← hend rest rfl, ← hahead, c.before_ahead]

theorem head_bare (ls : List Lexeme) :
    (Cursor.mk (ls.map fun l => ⟨l.token, ⟨0, 0⟩, .first⟩) .start false).head =
      ⟨headToken ls, ⟨0, 0⟩, .first⟩ := by
  cases ls <;> rfl

theorem failed_of_tokens (h : Untracked f r r') {c c' d : Cursor}
    (hsettles : Settles p j k (fun _ => r') c.bare) {e : ε} {taken taken' rest' : List Lexeme}
    (hfail : r c = .failed e d) (hc : c = d.before (taken ++ d.ahead))
    (hc' : c'.ahead = taken' ++ rest')
    (htaken : taken'.map Lexeme.token = taken.map Lexeme.token)
    (hrest : headToken rest' = d.peek) : ∃ d', r c' = .failed e d' := by
  -- both cursors without places, where they differ only behind the token that does not fit
  let strip : Lexeme → Lexeme := fun l => ⟨l.token, ⟨0, 0⟩, .first⟩
  have hbare : c.bare.ahead = taken.map strip ++ d.ahead.map strip := by
    rw [← List.map_append, hc]
    rfl
  have hbare' : c'.bare = c.bare.before (taken.map strip ++ rest'.map strip) := by
    have hstrip : taken'.map strip = taken.map strip := by
      have hmap := congrArg (List.map fun t => (⟨t, ⟨0, 0⟩, .first⟩ : Lexeme)) htaken
      rwa [List.map_map, List.map_map] at hmap
    rw [← hstrip, ← List.map_append, ← hc']
    rfl
  have hfailed : r' c.bare = .failed e d.bare := by
    have hveiled := h .bare c
    rw [hfail] at hveiled
    exact hveiled
  obtain ⟨x, front, rest, hahead, hend, hread⟩ := hsettles.ending
  rw [hfailed] at hend
  cases x with
  | ok a => exact absurd hend nofun
  | error e' =>
    obtain ⟨rfl, hd⟩ := Outcome.failed.inj hend
    obtain rfl : d.ahead.map strip = rest := congrArg Cursor.ahead hd
    obtain rfl : taken.map strip = front := List.append_cancel_right (hbare.symm.trans hahead)
    have hhead : (c.bare.before (rest'.map strip)).head =
        (c.bare.before (d.ahead.map strip)).head := by
      refine (head_bare rest').trans (Eq.trans ?_ (head_bare d.ahead).symm)
      rw [hrest, Cursor.peek_eq]
    have hsame := hread (rest'.map strip) hhead
    rw [← hbare'] at hsame
    have hveiled := h .bare c'
    change r' c'.bare = _ at hveiled
    rw [hsame] at hveiled
    obtain ⟨d', hd', -⟩ := Outcome.veiled_eq_failed.1 hveiled.symm
    exact ⟨d', hd'⟩

end Reader

namespace Lexeme

theorem exists_spelling {t : Token} (ht : t ∈ fillers) :
    ∃ text : List Char, ∀ r, tokens (text ++ ',' :: r) = t :: tokens (',' :: r) := by
  have hspell : ∀ (c : Char) (part : List Char), (∀ r, ignored c (part ++ ',' :: r) = 0) →
      (∀ r, Token.first c (part ++ ',' :: r) = (t, part.length + 1)) →
      ∃ text : List Char, ∀ r, tokens (text ++ ',' :: r) = t :: tokens (',' :: r) :=
    fun c part hc hfirst => ⟨c :: part, fun r => tokens_token (hc r) (hfirst r)⟩
  simp only [fillers, List.mem_cons, List.not_mem_nil, or_false] at ht
  obtain rfl | rfl | rfl | rfl | rfl | rfl | rfl | rfl | rfl | rfl | rfl := ht
  · exact hspell 'a' [] (fun _ => rfl) (fun _ => rfl)
  · exact hspell 'o' ['n'] (fun _ => rfl) (fun _ => rfl)
  · exact hspell ':' [] (fun _ => rfl) (fun _ => rfl)
  · exact hspell '0' [] (fun _ => rfl) (fun _ => rfl)
  · exact hspell '$' ['a'] (fun _ => rfl) (fun _ => rfl)
  · exact hspell '@' ['a'] (fun _ => rfl) (fun _ => rfl)
  · exact hspell ')' [] (fun _ => rfl) (fun _ => rfl)
  · exact hspell '[' [] (fun _ => rfl) (fun _ => rfl)
  · exact hspell ']' [] (fun _ => rfl) (fun _ => rfl)
  · exact hspell '\x7b' [] (fun _ => rfl) (fun _ => rfl)
  · exact hspell '\x7d' [] (fun _ => rfl) (fun _ => rfl)

theorem exists_spelling_all {ls : List Lexeme} (h : Filled ls) :
    ∃ text : List Char, tokens (',' :: text) = ls.map token := by
  induction ls with
  | nil => exact ⟨[], rfl⟩
  | cons l ls ih =>
    obtain ⟨hl, hls⟩ := List.forall_mem_cons.1 h
    obtain ⟨more, hmore⟩ := ih hls
    obtain ⟨text, htext⟩ := exists_spelling hl
    refine ⟨text ++ ',' :: more, ?_⟩
    rw [tokens_separator (by decide), htext, hmore, List.map_cons]

theorem exists_of_prefix {ts : List Token} {t : Token} {ls : List Lexeme}
    (h : ts ++ [t] <+: ls.map token ++ [.finish]) :
    ∃ taken rest, ls = taken ++ rest ∧ taken.map token = ts ∧ headToken rest = t := by
  induction ts generalizing ls with
  | nil =>
    refine ⟨[], ls, rfl, rfl, ?_⟩
    cases ls with
    | nil => exact (List.cons_prefix_cons.1 h).1.symm
    | cons l ls => exact (List.cons_prefix_cons.1 h).1.symm
  | cons s ts ih =>
    cases ls with
    | nil => simp at h
    | cons l ls =>
      obtain ⟨rfl, htail⟩ := List.cons_prefix_cons.1 h
      obtain ⟨taken, rest, rfl, rfl, rfl⟩ := ih htail
      exact ⟨l :: taken, rest, rfl, rfl, rfl⟩

theorem exists_tokens_filled {source : List Char} {taken rest more : List Lexeme}
    (hscan : scan source = taken ++ rest) (hvalid : ∀ l ∈ taken, l.token ≠ .invalid)
    (hmore : Filled more) : ∃ cs, tokens cs = (taken ++ more).map token := by
  obtain ⟨text, htext⟩ := exists_spelling_all hmore
  have hparted : Parted (',' :: text) := ⟨',', text, rfl, by decide⟩
  by_cases hne : taken = []
  · subst hne
    exact ⟨_, htext⟩
  · obtain ⟨before, -, -, -, -, -, hexchange⟩ :=
      exists_tokens_exchange (p := .start) hscan hvalid hne
    exact ⟨before ++ ',' :: text, by rw [hexchange _ hparted, htext, List.map_append]⟩

end Lexeme

namespace Document

theorem exists_read_of_tokens (tracked : Bool) {source : String} {t : DocumentTree}
    (h : t.lexemes.map Lexeme.token = Lexeme.tokens source.toList) :
    ∃ d, Document.read tracked source = .ok d := by
  have hread := complete_readDefinitions (.ofSource tracked source.toList) t
  have hahead : ((Cursor.ofSource tracked source.toList).before t.lexemes).ahead.map Lexeme.token =
      (Cursor.ofSource tracked source.toList).ahead.map Lexeme.token := h
  obtain ⟨a, rest, hdone, -⟩ := untracked_readDefinitions.done_of_tokens hahead hread
  obtain ⟨u, hu, rfl⟩ := readDefinitions_eq_done.1 ⟨rest, hdone⟩
  exact ⟨_, read_eq_ok.2 ⟨u, hu, rfl⟩⟩

theorem read_eq_error {tracked : Bool} {source : String} {e : Error}
    (h : Document.read tracked source = .error e) :
    ∃ kind d, readDefinitions (.ofSource tracked source.toList) = .failed kind d ∧
      e.location = some d.head.location := by
  have hnode : readNode readDefinitions tracked source = .error e := by
    rw [Document.read] at h
    cases hnode : readNode readDefinitions tracked source with
    | ok a => simp [hnode, bind, Except.bind, pure, Except.pure] at h
    | error e' => simpa [hnode, bind, Except.bind] using h
  rw [readNode, Reader.run] at hnode
  obtain ⟨a, d, hdone⟩ | ⟨kind, d, hfailed, -⟩ :=
    (settles_readDefinitions (c := .ofSource tracked source.toList)).outcome
  · simp [hdone] at hnode
  · simp only [hfailed, Except.error.injEq] at hnode
    exact ⟨kind, d, hfailed, hnode ▸ rfl⟩

def Begun (tracked : Bool) (ts : List Token) : Prop :=
  ∃ source d, Document.read tracked source = .ok d ∧
    ts <+: Lexeme.tokens source.toList ++ [.finish]

/-- An error of a document is located where the first token stands that does not fit. In front of it
stand the first tokens of an accepted document, and with it they are that no more. The end of the
source is the token behind all others. -/
theorem read_error_location {tracked : Bool} {source : String} {e : Error}
    (h : Document.read tracked source = .error e) :
    ∃ taken l rest,
      Lexeme.scan source.toList ++ [Lexeme.finish source.toList] = taken ++ l :: rest ∧
      e.location = some (Location.atOffset source.toList l.span.start) ∧
      Begun tracked (taken.map Lexeme.token) ∧
      ¬ Begun tracked ((taken ++ [l]).map Lexeme.token) := by
  obtain ⟨kind, d, hfail, hlocation⟩ := read_eq_error h
  obtain ⟨t, -, taken, more, hlexemes, hmore, hc⟩ := completes_readDefinitions _ _ _ hfail
  have hscan : Lexeme.scan source.toList = taken ++ d.ahead := congrArg Cursor.ahead hc
  obtain ⟨rest, hrest⟩ : ∃ rest, d.ahead ++ [Lexeme.finish source.toList] = d.head :: rest := by
    have hd : d = (Cursor.ofSource tracked source.toList).before d.ahead := by
      rw [hc]
      rfl
    rw [hd, Cursor.ahead_before]
    cases d.ahead with
    | nil => exact ⟨[], rfl⟩
    | cons l ls => exact ⟨ls ++ [Lexeme.finish source.toList], rfl⟩
  have hsplit : Lexeme.scan source.toList ++ [Lexeme.finish source.toList] =
      taken ++ d.head :: rest := by
    rw [hscan, List.append_assoc, hrest]
  refine ⟨taken, d.head, rest, hsplit, ?_, ?_, ?_⟩
  · have hmem : d.head ∈ Lexeme.scan source.toList ++ [Lexeme.finish source.toList] :=
      hsplit ▸ List.mem_append_right taken List.mem_cons_self
    rw [hlocation, Lexeme.location_eq hmem]
  · have hvalid : ∀ l ∈ taken, l.token ≠ .invalid :=
      fun l hl => t.valid l (hlexemes ▸ List.mem_append_left more hl)
    obtain ⟨cs, hcs⟩ := Lexeme.exists_tokens_filled hscan hvalid hmore
    have htokens : t.lexemes.map Lexeme.token = Lexeme.tokens (String.ofList cs).toList := by
      rw [hlexemes, String.toList_ofList, hcs]
    obtain ⟨document, hread⟩ := exists_read_of_tokens tracked htokens
    refine ⟨String.ofList cs, document, hread, ?_⟩
    rw [← htokens, hlexemes, List.map_append, List.append_assoc]
    exact List.prefix_append _ _
  · rintro ⟨source', document, hread, hprefix⟩
    rw [List.map_append] at hprefix
    obtain ⟨taken', rest', hscan', htaken, hpeek⟩ := Lexeme.exists_of_prefix hprefix
    have hahead : (Cursor.ofSource tracked source'.toList).ahead = taken' ++ rest' := hscan'
    obtain ⟨d', hfailed⟩ := failed_of_tokens untracked_readDefinitions settles_readDefinitions
      hfail hc hahead htaken hpeek
    obtain ⟨u, hu, -⟩ := read_eq_ok.1 hread
    obtain ⟨_, hdone⟩ := readDefinitions_eq_done.2 ⟨u, hu, rfl⟩
    rw [hdone] at hfailed
    exact absurd hfailed nofun

/-- A variable in a list that is the default of another one, which has to be constant. -/
theorem read_error_location_default :
    ∃ e, Document.read true "query($a:I=[1,$b])\x7ba\x7d" = .error e ∧ e.location = some ⟨1, 15⟩ ∧
      ∃ taken l rest,
        Lexeme.scan "query($a:I=[1,$b])\x7ba\x7d".toList
          ++ [Lexeme.finish "query($a:I=[1,$b])\x7ba\x7d".toList] = taken ++ l :: rest ∧
        e.location = some (Location.atOffset "query($a:I=[1,$b])\x7ba\x7d".toList l.span.start) ∧
        Begun true (taken.map Lexeme.token) ∧
        ¬ Begun true ((taken ++ [l]).map Lexeme.token) := by
  obtain ⟨e, hread, hlocation⟩ : ∃ e, Document.read true "query($a:I=[1,$b])\x7ba\x7d" =
      .error e ∧ e.location = some ⟨1, 15⟩ := ⟨_, rfl, rfl⟩
  exact ⟨e, hread, hlocation, read_error_location hread⟩

end Document

end GraphQLCheck
