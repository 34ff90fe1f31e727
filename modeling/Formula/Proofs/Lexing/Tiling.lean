import Formula.Proofs.Lexing.Cuts
import Formula.Proofs.Parser.Depth
import Mathlib.Data.List.Infix

/-!
The tokens tile the text.

A lexer and its copies stand between characters of their text and only move forward, whatever is
done with them. The tokens up to the end or to the first error, each with its text, and the blanks
between them make up what has been read. Main statement: `tokens_tile_text`.
-/

namespace Formula

/-- The position lies between two characters of the text, or at one of its ends. -/
def Boundary (t : Text) (p : ℕ) : Prop := ∃ s, s <+: t ∧ byteLength s = p

/-- The text `u` stands in `t`, with its first byte at position `p`. -/
def StandsAt (t u : Text) (p : ℕ) : Prop := ∃ s r, t = s ++ (u ++ r) ∧ byteLength s = p

/-- The text is the tokens in their order, each with its text, at its position and after blanks, and
blanks at the end. -/
def Tiles (t : Text) (ts : List Token) : Prop :=
  Cuts (fun _ u k => u ≠ [] ∧ k ≠ .stop) 0 t ts (byteLength t) []

variable {p q : ℕ} {r s t u : Text} {ts : List Token} {tok : Token} {l l' : Lexer}

/-! ### Positions -/

lemma Boundary.le (h : Boundary t p) : p ≤ byteLength t := by
  obtain ⟨s, ⟨r, rfl⟩, rfl⟩ := h
  rw [byteLength_append]
  exact Nat.le_add_right _ _

instance (t : Text) (p : ℕ) : Decidable (Boundary t p) :=
  decidable_of_iff (p ∈ t.inits.map byteLength) (by simp [Boundary])

lemma StandsAt.boundary (h : StandsAt t u p) : Boundary t p := by
  obtain ⟨s, r, rfl, hp⟩ := h
  exact ⟨s, List.prefix_append _ _, hp⟩

lemma StandsAt.append_left (h : StandsAt t u p) (s : Text) :
    StandsAt (s ++ t) u (byteLength s + p) := by
  obtain ⟨s', r, rfl, hp⟩ := h
  exact ⟨s ++ s', r, by rw [List.append_assoc], by rw [byteLength_append, hp]⟩

namespace Cuts

/-- Every token is a piece, and stands where its position says. -/
lemma mem {rule : Text → Text → Token.Kind → Prop} (h : Cuts rule p t ts q r) :
    ∀ tok ∈ ts, (∃ s, rule s tok.text tok.kind) ∧
      ∃ n, tok.pos = p + n ∧ StandsAt t tok.text n := by
  induction h with
  | rest _ _ => exact List.forall_mem_nil _
  | @token p q b u t r k ts hb hu _ ih =>
    refine List.forall_mem_cons.2 ⟨⟨⟨_, hu⟩, byteLength b, rfl, b, t, rfl, rfl⟩, fun tok htok => ?_⟩
    obtain ⟨hrule, n, hn, hstands⟩ := ih tok htok
    refine ⟨hrule, byteLength b + (byteLength u + n), by omega, ?_⟩
    exact (hstands.append_left u).append_left b

/-- Pieces take up room. -/
lemma length_le {rule : Text → Text → Token.Kind → Prop} (hrule : ∀ s u k, rule s u k → u ≠ [])
    (h : Cuts rule p t ts q r) : p + ts.length ≤ q := by
  induction h with
  | rest _ _ => exact Nat.le_add_right _ _
  | @token p q b u t r k ts _ hu _ ih =>
    have hpos := List.length_pos_iff.2 (hrule _ _ _ hu)
    have hbytes := length_le_byteLength u
    rw [List.length_cons]
    omega

end Cuts

namespace Lexer

/-! ### One lexer -/

/-- The lexer reads the text `t`: it has what comes after its position left. -/
def Over (t : Text) (l : Lexer) : Prop := ∃ s, t = s ++ l.rest ∧ byteLength s = l.pos

lemma over_ofText (t : Text) : (ofText t).Over t := ⟨[], rfl, rfl⟩

lemma Over.boundary (h : l.Over t) : Boundary t l.pos := by
  obtain ⟨s, rfl, hp⟩ := h
  exact ⟨s, List.prefix_append _ _, hp⟩

lemma Over.pos_le (h : l.Over t) : l.pos ≤ byteLength t := h.boundary.le

lemma Over.advance (h : l.Over t) (n : ℕ) : (l.advance n).Over t := by
  obtain ⟨s, rfl, hp⟩ := h
  refine ⟨s ++ l.rest.take n, ?_, ?_⟩
  · rw [List.append_assoc, rest_advance, List.take_append_drop]
  · rw [byteLength_append, hp]
    rfl

lemma exists_advance_read (l : Lexer) : ∃ n, l.read.2 = l.advance n := by
  unfold read
  split <;> exact ⟨_, rfl⟩

lemma Over.next (h : l.Over t) : l.next.2.Over t := by
  obtain ⟨n, hn⟩ := l.skipBlanks.exists_advance_read
  have hskip : l.skipBlanks.Over t := h.advance _
  unfold Lexer.next
  rw [hn]
  exact hskip.advance n

lemma pos_le_advance (l : Lexer) (n : ℕ) : l.pos ≤ (l.advance n).pos := Nat.le_add_right _ _

lemma pos_le_next (l : Lexer) : l.pos ≤ l.next.2.pos := by
  obtain ⟨n, hn⟩ := l.skipBlanks.exists_advance_read
  unfold next
  rw [hn]
  exact Nat.le_trans (l.pos_le_advance _) (l.skipBlanks.pos_le_advance n)

lemma step_of_finished (h : l.finished = true) : l.step = (none, l) := by
  unfold step
  rw [if_pos h]

lemma step_of_not_finished (h : l.finished = false) :
    l.step = (some l.next.1, { l.next.2 with finished := isLast l.next.1 }) := by
  unfold step
  rw [if_neg (by simp [h])]

lemma Over.step (h : l.Over t) : l.step.2.Over t := by
  cases hf : l.finished with
  | true => rwa [step_of_finished hf]
  | false =>
    rw [step_of_not_finished hf]
    exact h.next

lemma pos_le_step (l : Lexer) : l.pos ≤ l.step.2.pos := by
  cases hf : l.finished with
  | true => rw [step_of_finished hf]
  | false =>
    rw [step_of_not_finished hf]
    exact l.pos_le_next

lemma Over.pos_eq (h : l.Over t) (hnil : l.rest = []) : l.pos = byteLength t := by
  obtain ⟨s, rfl, hp⟩ := h
  rw [hnil, List.append_nil, hp]

/-- Where nothing is left the end is read, and nothing changes. -/
lemma next_of_nil (h : l.rest = []) : l.next = (.ok ⟨.stop, [], l.pos⟩, l) := by
  obtain ⟨rest, pos, finished⟩ := l
  cases h
  rfl

/-- The end lies at the end of the text, and is read again and again. -/
lemma Over.stop (h : l.Over t) (hnext : l.next = (.ok tok, l')) (hstop : tok.kind = .stop) :
    tok = ⟨.stop, [], byteLength t⟩ ∧ l'.next = (.ok tok, l') := by
  have hnil : l'.rest = [] := rest_eq_nil hnext hstop
  have hover : l'.Over t := by
    have := h.next
    rwa [hnext] at this
  obtain ⟨hmunch, hpos, hl'⟩ := read_eq_ok hnext
  have hrest := eq_nil_of_munch_stop (t := l.skipBlanks.rest) (by rw [hmunch, hstop])
  have htext : tok.text = [] := by
    rw [hrest] at hmunch
    exact (congrArg Prod.snd hmunch).symm
  have hpos' : tok.pos = l'.pos := by
    rw [hpos, hl', htext]
    rfl
  have htok : tok = ⟨.stop, [], l'.pos⟩ := by
    rw [← hpos', ← htext, ← hstop]
  rw [htok, next_of_nil hnil, hover.pos_eq hnil]
  exact ⟨rfl, rfl⟩

/-! ### Lexers and their copies -/

/-- What can be asked of lexers: the next token, a look at the next token, and the next item of the
iteration; to put a copy aside, and to go on with the copy that was put aside last. -/
inductive Command where
  | next
  | peek
  | step
  | save
  | restore
deriving DecidableEq

end Lexer

/-- A lexer and the copies that were made of it, in the order in which they were made, by number.
One of them is in use, and some have been put aside, the last of them first. -/
structure Bench where
  made : List Lexer
  current : ℕ := 0
  saved : List ℕ := []

namespace Bench

open Lexer (Command)

def ofText (t : Text) : Bench := { made := [.ofText t] }

/-- Moves the lexer in use. -/
def move (b : Bench) (f : Lexer → Lexer) : Bench := { b with made := b.made.modify b.current f }

def exec (b : Bench) : Command → Bench
  | .next => b.move fun l => l.next.2
  | .peek => b
  | .step => b.move fun l => l.step.2
  | .save => { b with
      made := b.made ++ b.made[b.current]?.toList
      saved := b.made.length :: b.saved }
  | .restore => match b.saved with
    | [] => b
    | i :: is => { b with current := i, saved := is }

/-- What a command gives, if it gives an item. -/
def answer (b : Bench) (c : Command) : Option (Except ParseError Token) :=
  b.made[b.current]?.bind fun l => match c with
    | .next => some l.next.1
    | .peek => some l.peek
    | .step => l.step.1
    | .save | .restore => none

def run (b : Bench) (cs : List Command) : Bench := cs.foldl exec b

/-- The commands with what they give. -/
def answers (b : Bench) : List Command → List (Command × Option (Except ParseError Token))
  | [] => []
  | c :: cs => (c, b.answer c) :: (b.exec c).answers cs

variable {b : Bench} {c : Command} {cs : List Command}

@[simp] lemma run_nil : b.run [] = b := rfl

@[simp] lemma run_cons : b.run (c :: cs) = (b.exec c).run cs := rfl

lemma run_append (b : Bench) (cs cs' : List Command) : b.run (cs ++ cs') = (b.run cs).run cs' :=
  List.foldl_append

lemma made_restore (b : Bench) : (b.exec .restore).made = b.made := by
  unfold exec
  rcases b.saved with _ | ⟨i, is⟩ <;> rfl

/-- What reading a token keeps of a lexer, a command keeps of all lexers. -/
lemma forall_exec {P : Lexer → Prop} (hnext : ∀ l, P l → P l.next.2)
    (hstep : ∀ l, P l → P l.step.2) (h : ∀ l ∈ b.made, P l) (c : Command) :
    ∀ l ∈ (b.exec c).made, P l := by
  have hmove (f : Lexer → Lexer) (hf : ∀ l, P l → P (f l)) : ∀ l ∈ (b.move f).made, P l := by
    intro l hl
    obtain ⟨i, hi⟩ := List.mem_iff_getElem?.1 hl
    rw [move, List.getElem?_modify] at hi
    obtain ⟨l₀, hl₀, rfl⟩ := Option.map_eq_some_iff.1 hi
    have hP := h l₀ (List.mem_of_getElem? hl₀)
    split
    · exact hf l₀ hP
    · exact hP
  cases c with
  | next => exact hmove _ hnext
  | step => exact hmove _ hstep
  | peek => exact h
  | save =>
    refine List.forall_mem_append.2 ⟨h, fun l hl => ?_⟩
    exact h l (List.mem_of_getElem? (Option.mem_toList.1 hl))
  | restore => rwa [made_restore]

lemma forall_run {P : Lexer → Prop} (hnext : ∀ l, P l → P l.next.2)
    (hstep : ∀ l, P l → P l.step.2) (h : ∀ l ∈ b.made, P l) (cs : List Command) :
    ∀ l ∈ (b.run cs).made, P l := by
  induction cs generalizing b with
  | nil => exact h
  | cons c cs ih => exact ih (forall_exec hnext hstep h c)

/-- A lexer keeps its number, and no command moves it back. -/
lemma exists_exec {i : ℕ} {l : Lexer} (h : b.made[i]? = some l) (c : Command) :
    ∃ l', (b.exec c).made[i]? = some l' ∧ l.pos ≤ l'.pos := by
  have hmove (f : Lexer → Lexer) (hf : l.pos ≤ (f l).pos) :
      ∃ l', (b.move f).made[i]? = some l' ∧ l.pos ≤ l'.pos := by
    rw [move, List.getElem?_modify, h, Option.map_eq_map, Option.map_some]
    split
    · exact ⟨f l, rfl, hf⟩
    · exact ⟨l, rfl, Nat.le_refl _⟩
  cases c with
  | next => exact hmove _ l.pos_le_next
  | step => exact hmove _ l.pos_le_step
  | peek => exact ⟨l, h, Nat.le_refl _⟩
  | save =>
    refine ⟨l, ?_, Nat.le_refl _⟩
    rw [exec, List.getElem?_append_left (List.getElem?_eq_some_iff.1 h).1, h]
  | restore => exact ⟨l, by rwa [made_restore], Nat.le_refl _⟩

lemma exists_run {i : ℕ} {l : Lexer} (h : b.made[i]? = some l) (cs : List Command) :
    ∃ l', (b.run cs).made[i]? = some l' ∧ l.pos ≤ l'.pos := by
  induction cs generalizing b l with
  | nil => exact ⟨l, h, Nat.le_refl _⟩
  | cons c cs ih =>
    obtain ⟨l₁, h₁, hle₁⟩ := exists_exec h c
    obtain ⟨l₂, h₂, hle₂⟩ := ih h₁
    exact ⟨l₂, h₂, Nat.le_trans hle₁ hle₂⟩

/-- Without the looks at the next token all goes as it goes with them. -/
lemma run_filter_peek (b : Bench) (cs : List Command) :
    b.run (cs.filter (· ≠ .peek)) = b.run cs ∧
      b.answers (cs.filter (· ≠ .peek)) = (b.answers cs).filter (·.1 ≠ .peek) := by
  induction cs generalizing b with
  | nil => exact ⟨rfl, rfl⟩
  | cons c cs ih =>
    obtain ⟨hrun, hanswers⟩ := ih (b.exec c)
    by_cases hc : c = .peek
    · subst hc
      rw [List.filter_cons_of_neg (by simp), answers, List.filter_cons_of_neg (by simp)]
      exact ⟨hrun, hanswers⟩
    · rw [List.filter_cons_of_pos (by simp [hc]), answers, answers,
        List.filter_cons_of_pos (by simp [hc]), hanswers]
      exact ⟨hrun, rfl⟩

end Bench

/-! ### Iteration -/

namespace Lexer

/-- What the iteration gives when it is asked for the `n`-th time, counted from zero. -/
def nth (l : Lexer) : ℕ → Option (Except ParseError Token)
  | 0 => l.step.1
  | n + 1 => l.step.2.nth n

lemma finished_next (l : Lexer) : l.next.2.finished = l.finished := by
  obtain ⟨n, hn⟩ := l.skipBlanks.exists_advance_read
  unfold next
  rw [hn]
  rfl

lemma nth_of_finished (h : l.finished = true) (n : ℕ) : l.nth n = none := by
  induction n with
  | zero => rw [nth, step_of_finished h]
  | succ n ih => rw [nth, step_of_finished h, ih]

/-- The iteration gives the items in their order and then nothing. -/
theorem nth_eq_getElem? (h : l.finished = false) (n : ℕ) : l.nth n = l.items[n]? := by
  induction n generalizing l with
  | zero =>
    rw [nth, step_of_not_finished h]
    rcases hnext : l.next with ⟨err | tok, l'⟩
    · rw [items_of_error hnext]
      rfl
    · rw [items_of_ok hnext]
      rfl
  | succ n ih =>
    rw [nth, step_of_not_finished h]
    have hfinished := l.finished_next
    rcases hnext : l.next with ⟨err | tok, l'⟩
    · rw [items_of_error hnext]
      exact nth_of_finished rfl n
    · rw [items_of_ok hnext, List.getElem?_cons_succ]
      split
      · exact nth_of_finished (by simpa [isLast]) n
      · rename_i hstop
        rw [hnext, h] at hfinished
        have hlast : isLast (.ok tok) = l'.finished := by
          rw [hfinished]
          exact decide_eq_false hstop
        simp only [hlast]
        exact ih hfinished

end Lexer

/-- The tokens before the last item, and the part of the text that they tile. -/
lemma exists_tiles (t : Text) : ∃ ts q r s,
    (Lexer.ofText t).items = ts.map .ok ++ [Lexer.last q r] ∧
    t = s ++ r ∧ byteLength s = q ∧ Tiles s ts ∧ ts.length ≤ q ∧
    (∀ tok ∈ ts, tok.kind ≠ .stop ∧ tok.text ≠ [] ∧ StandsAt t tok.text tok.pos) ∧
    (r = [] ∨ ∃ f, Lexer.last q r = .error ⟨q, .lexical f⟩) := by
  obtain ⟨ts, q, r, hcuts, hr⟩ := (Lexer.ofText t).exists_cuts
  have hitems := Lexer.items_of_cuts (l := .ofText t) hcuts hr rfl rfl
  have htiles : Cuts (fun _ u k => u ≠ [] ∧ k ≠ .stop) 0 t ts q r :=
    Cuts.mono (fun _ _ _ hu => ⟨hu.ne_nil, hu.2⟩) hcuts
  obtain ⟨s, hs, hq, hbefore⟩ := htiles.exists_before fun _ _ _ _ hu => hu
  rw [Nat.zero_add] at hq
  have hlength := htiles.length_le fun _ _ _ hu => hu.1
  refine ⟨ts, q, r, s, hitems, hs, hq.symm, by rwa [Tiles, ← hq], by omega, fun tok htok => ?_, ?_⟩
  · obtain ⟨⟨_, hne, hstop⟩, n, hn, hstands⟩ := htiles.mem tok htok
    rw [Nat.zero_add] at hn
    exact ⟨hstop, hne, hn ▸ hstands⟩
  · rcases munch_of_not_munches hr with rfl | ⟨f, u, hf⟩
    · exact .inl rfl
    · exact .inr ⟨f, Lexer.last_of_error hf⟩

/-- **The tokens tile the text.** Whatever is done with a lexer and its copies, each of them stands
between characters of the text and only moves forward, the end is read at the end of the text and
again and again, and to look at the next token changes nothing. The items are tokens, which stand in
the text one after the other with blanks between them, and then the end, or the first error with the
part of the text before it tiled. There is at most one item more than the text has bytes, and this
is what the iteration gives before it gives nothing. -/
theorem tokens_tile_text (t : Text) :
    (∀ cs, ∀ l ∈ ((Bench.ofText t).run cs).made,
      Boundary t l.pos ∧ l.pos ≤ byteLength t ∧
      ∀ tok l', l.next = (.ok tok, l') → tok.kind = .stop →
        tok = ⟨.stop, [], byteLength t⟩ ∧ l'.next = (.ok tok, l')) ∧
    (∀ cs cs' (i : ℕ) (l : Lexer), ((Bench.ofText t).run cs).made[i]? = some l →
      ∃ l', ((Bench.ofText t).run (cs ++ cs')).made[i]? = some l' ∧ l.pos ≤ l'.pos) ∧
    (∀ cs, (Bench.ofText t).run (cs.filter (· ≠ .peek)) = (Bench.ofText t).run cs ∧
      (Bench.ofText t).answers (cs.filter (· ≠ .peek)) =
        ((Bench.ofText t).answers cs).filter (·.1 ≠ .peek)) ∧
    (∃ ts last, (Lexer.ofText t).items = ts.map .ok ++ [last] ∧
      (∀ tok ∈ ts, tok.kind ≠ .stop ∧ tok.text ≠ [] ∧ StandsAt t tok.text tok.pos) ∧
      (last = .ok ⟨.stop, [], byteLength t⟩ ∧ Tiles t ts ∨
        ∃ err s r, last = .error err ∧ t = s ++ r ∧ byteLength s = err.pos ∧ Tiles s ts)) ∧
    (Lexer.ofText t).items.length ≤ byteLength t + 1 ∧
    ∀ n, (Lexer.ofText t).nth n = (Lexer.ofText t).items[n]? := by
  obtain ⟨ts, q, r, s, hitems, hs, hq, htiles, hlength, htokens, hlast⟩ := exists_tiles t
  have hle : q ≤ byteLength t := by
    rw [hs, byteLength_append]
    omega
  have hover : ∀ l ∈ (Bench.ofText t).made, l.Over t :=
    List.forall_mem_singleton.2 (Lexer.over_ofText t)
  refine ⟨fun cs l hl => ?_, fun cs cs' i l hl => ?_, Bench.run_filter_peek _,
    ⟨ts, Lexer.last q r, hitems, htokens, ?_⟩, ?_, Lexer.nth_eq_getElem? rfl⟩
  · have h := Bench.forall_run (fun _ => Lexer.Over.next) (fun _ => Lexer.Over.step) hover cs l hl
    exact ⟨h.boundary, h.pos_le, fun tok l' => h.stop⟩
  · rw [Bench.run_append]
    exact Bench.exists_run hl cs'
  · rcases hlast with rfl | ⟨f, hf⟩
    · rw [List.append_nil] at hs
      rw [hs, hq]
      exact .inl ⟨rfl, htiles⟩
    · exact .inr ⟨_, s, r, hf, hs, hq, htiles⟩
  · rw [hitems, List.length_append, List.length_map, List.length_singleton]
    omega

end Formula
