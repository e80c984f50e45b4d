import DeskCalc.Program.Basic
import DeskCalc.Token.Feed

/-!
# Productions

A production reads a tree off the front of a token feed, or stops with a diagnostic; either way it
says what is left of the feed.  It never gives tokens back, which is part of the type and makes the
loops built from productions end.

This file has the productions for single tokens, and how productions follow each other.
-/

namespace DeskCalc

open Token (Feed)

/-- A reader of the token feed, which leaves no more than it found. -/
structure Production (α : Type) where
  run : Feed → Except Diagnostic α × Feed
  size_le : ∀ f, (run f).2.size ≤ f.size

namespace Production

variable {α β : Type}

instance : Monad Production where
  pure a := ⟨fun f => (.ok a, f), fun _ => Nat.le_refl _⟩
  bind p k :=
    { run := fun f =>
        match p.run f with
        | (.ok a, f') => (k a).run f'
        | (.error d, f') => (.error d, f')
      size_le := fun f => by
        have h := p.size_le f
        split
        · next a f' he =>
          rw [he] at h
          exact Nat.le_trans ((k a).size_le f') h
        · next d f' he =>
          rw [he] at h
          exact h }

@[simp]
theorem run_pure (a : α) (f : Feed) : (pure a : Production α).run f = (.ok a, f) := rfl

theorem run_bind (p : Production α) (k : α → Production β) (f : Feed) :
    (p >>= k).run f =
      match p.run f with
      | (.ok a, f') => (k a).run f'
      | (.error d, f') => (.error d, f') := rfl

/-- A production that takes at least one token whenever it succeeds. -/
def Consumes (p : Production α) : Prop :=
  ∀ f a f', p.run f = (.ok a, f') → f'.size < f.size

theorem Consumes.bind {p : Production α} (h : p.Consumes) (k : α → Production β) :
    (p >>= k).Consumes := by
  intro f b f' hb
  rw [run_bind] at hb
  split at hb
  · next a f₁ ha =>
    have h₁ := h f a f₁ ha
    have h₂ := (k a).size_le f₁
    rw [hb] at h₂
    exact Nat.lt_of_le_of_lt h₂ h₁
  · cases hb

/-- The front token, left where it is. -/
def peek : Production Token := ⟨Feed.peek, Feed.size_peek_le⟩

/-- The front token, taken. -/
def next : Production Token := ⟨Feed.next, Feed.size_next_le⟩

/-- The kind of the front token. -/
def kind : Production Token.Kind := do
  return (← peek).kind

/-- Stops with a diagnostic. -/
def fail (d : Diagnostic) : Production α := ⟨fun f => (.error d, f), fun _ => Nat.le_refl _⟩

/-- Stops at the front token, which is not as `expected`. -/
def unexpected (expected : String) : Production α := do
  let t ← peek
  fail (.unexpected expected t)

/-- Takes a token of the given kind. -/
def expect (k : Token.Kind) : Production Token := do
  let t ← peek
  if t.kind = k then next else fail (.unexpected k.label t)

/-- Takes a name. -/
def name : Production Ident := do
  let t ← expect .id
  return ⟨t.text, t.row⟩

/-- Takes a token if its kind is one that `read?` reads. -/
def accept (read? : Token.Kind → Option α) (expected : String) : Production (α × Token) := do
  match read? (← kind) with
  | some a => return (a, ← next)
  | none => unexpected expected

theorem consumes_expect {k : Token.Kind} (hk : k ≠ .eof) : (expect k).Consumes := by
  intro f t f' h
  simp only [expect, run_bind, peek] at h
  split at h
  · next t₁ f₁ ht =>
    have hp : f.peek.1 = .ok t₁ := by rw [ht]
    have hf : f₁ = f := by rw [← Feed.peek_snd_of_ok hp, ht]
    subst hf
    split at h
    · next hkind =>
      have hlt := Feed.size_next_lt hp (by rw [hkind]; exact hk)
      rw [show (next.run f₁) = f₁.next from rfl] at h
      rwa [h] at hlt
    · cases h
  · cases h

theorem consumes_name : name.Consumes := (consumes_expect (by decide)).bind _

theorem consumes_accept {read? : Token.Kind → Option α} (h : read? .eof = none)
    (expected : String) : (accept read? expected).Consumes := by
  intro f a f' hr
  simp only [accept, kind, run_bind, peek, run_pure] at hr
  cases hp : f.peek with
  | mk x f₁ =>
    rw [hp] at hr
    cases x with
    | error d => cases hr
    | ok t =>
      have hp₁ : f.peek.1 = .ok t := by rw [hp]
      have hf : f₁ = f := by rw [← Feed.peek_snd_of_ok hp₁, hp]
      subst hf
      simp only at hr
      cases hk : read? t.kind with
      | none =>
        rw [hk] at hr
        simp only [unexpected, run_bind, peek, hp, fail] at hr
        cases hr
      | some b =>
        rw [hk] at hr
        have hlt := Feed.size_next_lt hp₁ (by intro he; rw [he, h] at hk; cases hk)
        simp only [run_bind, next, run_pure] at hr
        split at hr
        · next t' f₂ hn =>
          cases hr
          rwa [hn] at hlt
        · cases hr

end Production

end DeskCalc
