import DeskCalc.Proofs.Production.Reads
import DeskCalc.Proofs.Token.Lookahead
import DeskCalc.Proofs.Token.Spelling

/-!
# Scanners and feeds

A feed has at once what a scanner gives call by call.  Every scanner that can be read from has a
feed, whatever place it was moved to and whether or not it has looked ahead, and a feed of which
some tokens have been taken is the feed of the scanner after as many calls.

* `Scanner.exists_feeds` : every scanner that can be read from has a feed.
* `Scanner.Feeds.exists_ahead`, `Scanner.Feeds.calling` : the token in front of a feed is one that
  the scanner can hold as its lookahead, and comes to hold.
* `Scanner.Feeds.exists_of_read` : what a production leaves of a feed is left to the scanner too.
-/

namespace DeskCalc

namespace Token

namespace Feed

/-- What the call of `next` gives that comes after `n` calls. -/
def reading (f : Feed) (n : Nat) : Except Diagnostic Token :=
  f.pending.getD n (.ok (atEnd f.last))

/-- The faults of a feed come from its text. -/
def Lexical (f : Feed) : Prop := ∀ d, .error d ∈ f.pending → d.phase = .lexical

theorem lexical_read (row : Row) (cs : List Char) : (read row cs).Lexical := by
  obtain ⟨items, hp, hitems⟩ := regular_read row cs
  intro d hd
  rw [hp] at hd
  rcases List.mem_append.1 hd with hd | hd
  · exact hitems _ hd
  · cases List.mem_singleton.1 hd

theorem lexical_ofText (source : String) : (ofText source).Lexical := lexical_read 1 source.toList

theorem reading_eq_of_peek {f : Feed} {t : Token} (h : f.peek.1 = .ok t) :
    f.reading 0 = .ok t := by
  unfold peek at h
  unfold reading
  split at h
  · next hp => rw [hp]; exact h
  · next hp => rw [hp]; exact h
  · cases h

theorem After.reading_add {f f' : Feed} {ts : List Token} (h : f.After ts f') (n : Nat) :
    f.reading (ts.length + n) = f'.reading n := by
  unfold reading
  rw [h.pending, h.last, List.getD_eq_getElem?_getD, List.getElem?_append_right (by simp)]
  simp

end Feed

namespace Scanner

/-- The scanner gives, call by call, what the feed has. -/
def Feeds (s : Scanner) (f : Feed) : Prop :=
  ∀ n, s.reading n = (f.reading n).mapError .fault

/-- The place of the scanner does not split a character. -/
def Aligned (s : Scanner) : Prop := ∀ bytes rest, s.cursor ≠ .inside bytes rest

theorem reading_succ (s : Scanner) (n : Nat) : s.reading (n + 1) = s.next.2.reading n := rfl

theorem reading_add (s : Scanner) (k n : Nat) : s.reading (k + n) = (s.after k).reading n := by
  induction k generalizing s with
  | zero => rw [Nat.zero_add]; rfl
  | succ k ih => rw [Nat.succ_add, reading_succ, ih]; rfl

theorem reading_of_next {s : Scanner} {r : Except ReadError Token} (h : s.next = (r, s))
    (n : Nat) : s.reading n = r := by
  induction n with
  | zero => rw [reading, after, h]
  | succ n ih => rw [reading_succ, h, ih]

/-- A text gives call by call what it gives when it is read as a whole. -/
theorem feeds_read (row : Row) (cs : List Char) :
    Feeds ⟨.between cs, row, none⟩ (Feed.read row cs) := by
  fun_induction Feed.read row cs with
  | case1 row cs row' h =>
    have hnext : next ⟨.between cs, row, none⟩ =
        (.ok (Token.atEnd row'), ⟨.between [], row', none⟩) := by
      simp only [next, read, h]
    have hend : next ⟨.between [], row', none⟩ =
        (.ok (Token.atEnd row'), ⟨.between [], row', none⟩) := by
      simp [next, read, scan, rowAfter]
    intro n
    cases n with
    | zero => rw [reading, after, hnext]; rfl
    | succ n => rw [reading_succ, hnext, reading_of_next hend]; rfl
  | case2 row cs cut row' h _ tail ih =>
    have hnext : next ⟨.between cs, row, none⟩ =
        ((cut.lexeme.on row').mapError .fault, ⟨.between cut.rest, row', none⟩) := by
      simp only [next, read, h]
    intro n
    cases n with
    | zero => rw [reading, after, hnext]; rfl
    | succ n => rw [reading_succ, hnext]; exact ih n

theorem Feeds.cons {s : Scanner} {f : Feed} (h : Feeds { s with ahead := none } f) (t : Token) :
    Feeds { s with ahead := some t } ⟨.ok t :: f.pending, f.last⟩ := by
  intro n
  cases n with
  | zero => rfl
  | succ n => exact h n

/-- **Every scanner that can be read from has a feed**, the faults of which are lexical. -/
theorem exists_feeds {s : Scanner} (hs : s.Aligned) : ∃ f : Feed, f.Lexical ∧ s.Feeds f := by
  obtain ⟨cursor, row, ahead⟩ := s
  have htext : ∃ f : Feed, f.Lexical ∧ Feeds ⟨cursor, row, none⟩ f := by
    cases cursor with
    | between cs => exact ⟨_, Feed.lexical_read row cs, feeds_read row cs⟩
    | inside bytes rest => exact absurd rfl (hs bytes rest)
    | beyond =>
      have hnext : next ⟨.beyond, row, none⟩ = (.ok (Token.atEnd row), ⟨.beyond, row, none⟩) := rfl
      refine ⟨⟨[], row⟩, ?_, fun n => ?_⟩
      · intro d hd
        cases hd
      · rw [reading_of_next hnext]
        rfl
  cases ahead with
  | none => exact htext
  | some t =>
    obtain ⟨f, hf, hfeeds⟩ := htext
    refine ⟨⟨.ok t :: f.pending, f.last⟩, fun d hd => hf d ?_,
      Feeds.cons (s := ⟨cursor, row, some t⟩) hfeeds t⟩
    exact (List.mem_cons.1 hd).resolve_left fun h => by cases h

/-- The tokens taken of a feed are what as many calls give, and then comes what is left. -/
theorem Feeds.after {s : Scanner} {f f' : Feed} {ts : List Token} (h : s.Feeds f)
    (hf : f.After ts f') :
    (∀ n (hn : n < ts.length), s.reading n = .ok ts[n]) ∧ (s.after ts.length).Feeds f' := by
  refine ⟨fun n hn => ?_, fun n => ?_⟩
  · rw [h, Feed.reading, hf.pending, List.getD_eq_getElem?_getD,
      List.getElem?_append_left (by simpa using hn)]
    simp [hn, Except.mapError]
  · rw [← reading_add, h, hf.reading_add]

/-- A scanner that gave these tokens gives what the feed has after them, whichever calls took them
and whether or not the last of them looked ahead. -/
theorem Feeds.follows {s s' : Scanner} {f f' : Feed} {ts : List Token} (h : s.Feeds f)
    (hf : f.After ts f') (hs : s.Follows ts.length s') : s'.Feeds f' := by
  have hreading := (h.after hf).2
  cases hs with
  | taken => exact hreading
  | @looked t ht =>
    intro n
    cases n with
    | zero =>
      rw [← hreading, ← reading_add, Nat.add_zero]
      exact ht.symm
    | succ n =>
      have hforget := after_succ_forget s ts.length
      rw [← hreading, reading_succ, reading_succ, ← after_succ]
      exact congrArg (fun s : Scanner => s.reading n) hforget

/-- The token in front of what is left of a feed is one that the scanner, after as many calls, can
hold as its lookahead. -/
theorem Feeds.exists_ahead {s : Scanner} {f f' : Feed} {ts : List Token} {t : Token}
    (h : s.Feeds f) (hf : f.After ts f') (ht : f'.peek.1 = .ok t) :
    ∃ s' : Scanner, s.Follows ts.length s' ∧ s'.Feeds f' ∧ s'.ahead = some t := by
  have hfront : s.reading ts.length = .ok t := by
    rw [← Nat.add_zero ts.length, reading_add, (h.after hf).2, Feed.reading_eq_of_peek ht]
    rfl
  exact ⟨_, .looked hfront, h.follows hf (.looked hfront), rfl⟩

theorem peek_of_next {s : Scanner} {t : Token} (h : s.next.1 = .ok t) :
    s.peek.1 = .ok t ∧ s.peek.2.ahead = some t := by
  cases hahead : s.ahead with
  | none =>
    rw [peek_eq hahead, h]
    exact ⟨rfl, rfl⟩
  | some t' =>
    rw [next, hahead] at h
    rw [peek, hahead]
    exact ⟨h, hahead.trans (congrArg some (Except.ok.inj h))⟩

/-- The token in front of what is left of a feed is the one that the scanner looks ahead to, after
any calls that took as many tokens. -/
theorem Feeds.calling {s : Scanner} {f f' : Feed} {ts : List Token} {t : Token}
    (h : s.Feeds f) (hf : f.After ts f') (ht : f'.peek.1 = .ok t) {cs : List Call}
    (hcs : (taken (s.outcomes cs)).length = ts.length) :
    let s' := s.calling cs
    s'.Feeds f' ∧ s'.peek.1 = .ok t ∧ s'.peek.2.ahead = some t ∧ s'.next.1 = .ok t := by
  intro s'
  have hfollows : s.Follows ts.length s' := by
    have hstart : s.Follows 0 s := .taken
    have hcalling := follows_calling hstart cs
    rwa [Nat.zero_add, hcs] at hcalling
  have hfeeds := h.follows hf hfollows
  have hnext : s'.next.1 = .ok t := by
    have hfirst := hfeeds 0
    rwa [Feed.reading_eq_of_peek ht] at hfirst
  exact ⟨hfeeds, (peek_of_next hnext).1, (peek_of_next hnext).2, hnext⟩

/-- What a production leaves of a feed is the feed of the scanner after some calls: those for the
tokens taken and for a fault that was met. -/
theorem Feeds.exists_of_read {s : Scanner} {f : Feed} {α : Type} {R : List Token → α → Prop}
    {x : Except Diagnostic α × Feed} (h : s.Feeds f) (hread : f.Read R x) :
    ∃ (k : Nat) (s' : Scanner), s.Follows k s' ∧ s'.Feeds x.2 := by
  match x, hread with
  | (.ok a, f'), ⟨ts, hf, _⟩ => exact ⟨ts.length, _, .taken, (h.after hf).2⟩
  | (.error d, f'), ⟨ts, .inl hfault, _⟩ =>
    refine ⟨ts.length + 1, _, .taken, fun n => ?_⟩
    rw [after_succ, ← reading_succ, (h.after hfault).2]
    rfl
  | (.error d, f'), ⟨ts, .inr ⟨hf, _⟩, _⟩ => exact ⟨ts.length, _, .taken, (h.after hf).2⟩

end Scanner

end Token

end DeskCalc
