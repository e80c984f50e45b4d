import DeskCalc.Proofs.Token.Tiling

/-!
# Looking ahead takes no token

A caller may look ahead and take tokens in any order.  What is taken from a text, by calls of `next`
and by looks ahead that meet a fault, is what calls of `next` alone take from it; a look ahead that
finds a token takes nothing, and gives the token that is taken next.

* `Scanner.peek_eq` : a look ahead takes a result and puts a token back.
* `Scanner.Follows` : the invariant of a scanner from which `k` results have been taken.
* `Scanner.follows_call`, `Scanner.follows_calling` : every call gives the result at `k`, and keeps
  the invariant.
* `Scanner.outcomes_follow_readings` : what a sequence of calls gives.
-/

namespace DeskCalc

namespace Token

namespace Scanner

/-! ### Calls and what they give -/

/-- What a caller asks of a scanner. -/
inductive Call where
  | peek
  | next
  deriving DecidableEq

/-- Answers a call. -/
def call (s : Scanner) : Call → Except ReadError Token × Scanner
  | .peek => s.peek
  | .next => s.next

/-- A call and what it gave. -/
structure Outcome where
  call : Call
  result : Except ReadError Token
  deriving DecidableEq

/-- Whether a call took what it gave.  A look ahead takes a fault, and leaves a token. -/
def Outcome.takes (o : Outcome) : Bool := o.call = .next || !o.result.isOk

/-- The outcomes of calls, one after the other. -/
def outcomes (s : Scanner) : List Call → List Outcome
  | [] => []
  | c :: cs => ⟨c, (s.call c).1⟩ :: outcomes (s.call c).2 cs

/-- The scanner after calls, whatever they gave. -/
def calling (s : Scanner) : List Call → Scanner
  | [] => s
  | c :: cs => calling (s.call c).2 cs

/-- The results that were taken, in order. -/
def taken (os : List Outcome) : List (Except ReadError Token) :=
  (os.filter Outcome.takes).map Outcome.result

variable {s s₀ : Scanner} {k : Nat}

theorem taken_cons (o : Outcome) (os : List Outcome) :
    taken (o :: os) = if o.takes then o.result :: taken os else taken os := by
  cases h : o.takes <;> simp [taken, h]

theorem taken_append (os os' : List Outcome) : taken (os ++ os') = taken os ++ taken os' := by
  simp [taken]

/-! ### One call -/

theorem after_succ (s : Scanner) (n : Nat) : s.after (n + 1) = (s.after n).next.2 := by
  induction n generalizing s with
  | zero => rfl
  | succ n ih => exact ih s.next.2

theorem ahead_next (s : Scanner) : s.next.2.ahead = none := by
  unfold next
  split
  · rfl
  · next h =>
    unfold read
    split
    · exact h
    · exact h
    · split <;> exact h

theorem after_succ_forget (s : Scanner) (n : Nat) :
    { s.after (n + 1) with ahead := none } = s.after (n + 1) := by
  have hahead : (s.after (n + 1)).ahead = none := by rw [after_succ, ahead_next]
  rw [← hahead]

theorem peek_eq (h : s.ahead = none) :
    s.peek = (s.next.1, match s.next.1 with
      | .ok t => { s.next.2 with ahead := some t }
      | .error _ => s.next.2) := by
  simp only [peek, next, h]
  rcases s.read with ⟨_ | _, _⟩ <;> rfl

/-- The scanner `s` has come from `s₀` by taking `k` results, and may have looked ahead to the token
that follows them. -/
inductive Follows (s₀ : Scanner) (k : Nat) : Scanner → Prop
  | taken : Follows s₀ k (s₀.after k)
  | looked {t : Token} (h : s₀.reading k = .ok t) :
      Follows s₀ k { s₀.after (k + 1) with ahead := some t }

/-- **Every call gives the next result** of the calls of `next`, and goes on to the one after it iff
it takes the result. -/
theorem follows_call (h : Follows s₀ k s) (c : Call) :
    (s.call c).1 = s₀.reading k ∧
      Follows s₀ (if Outcome.takes ⟨c, (s.call c).1⟩ then k + 1 else k) (s.call c).2 := by
  cases h with
  | taken =>
    cases c with
    | next =>
      refine ⟨rfl, ?_⟩
      simpa [Outcome.takes, call, ← after_succ] using Follows.taken
    | peek =>
      cases hahead : (s₀.after k).ahead with
      | none =>
        rw [call, peek_eq hahead]
        refine ⟨rfl, ?_⟩
        rw [← after_succ]
        cases hr : (s₀.after k).next.1 with
        | ok t => exact .looked hr
        | error e => exact .taken
      | some t =>
        -- only before the first call there may be such a token
        have hcall : (s₀.after k).call .peek = (.ok t, s₀.after k) := by
          rw [call, peek, hahead]
        have hreading : s₀.reading k = .ok t := by rw [reading, next, hahead]
        rw [hcall, hreading]
        exact ⟨rfl, .taken⟩
  | @looked t hr =>
    cases c with
    | next =>
      have hfollows : Follows s₀ (k + 1) { s₀.after (k + 1) with ahead := none } := by
        rw [after_succ_forget]
        exact .taken
      exact ⟨hr.symm, hfollows⟩
    | peek => exact ⟨hr.symm, .looked hr⟩

/-! ### Many calls -/

/-- A call gives the result after those that the calls before it took. -/
theorem result_of_getElem? (h : Follows s₀ k s) {cs : List Call} {i : Nat}
    {o : Outcome} (hi : (s.outcomes cs)[i]? = some o) :
    o.result = s₀.reading (k + (taken ((s.outcomes cs).take i)).length) := by
  induction cs generalizing s k i with
  | nil => cases hi
  | cons c cs ih =>
    obtain ⟨hresult, hfollows⟩ := follows_call h c
    cases i with
    | zero =>
      cases hi
      exact hresult
    | succ i =>
      rw [ih hfollows hi, outcomes, List.take_succ_cons, taken_cons]
      split
      · rw [List.length_cons, Nat.add_assoc, Nat.add_comm 1]
      · rfl

theorem taken_outcomes (h : Follows s₀ k s) (cs : List Call) :
    taken (s.outcomes cs) =
      (List.range' k (taken (s.outcomes cs)).length).map s₀.reading := by
  induction cs generalizing s k with
  | nil => rfl
  | cons c cs ih =>
    obtain ⟨hresult, hfollows⟩ := follows_call h c
    have htail := ih hfollows
    rw [outcomes, taken_cons]
    split
    · next ht =>
      rw [if_pos ht] at htail
      rw [List.length_cons, List.range'_succ, List.map_cons, ← htail, ← hresult]
    · next ht => rwa [if_neg ht] at htail

theorem follows_calling (h : Follows s₀ k s) (cs : List Call) :
    Follows s₀ (k + (taken (s.outcomes cs)).length) (s.calling cs) := by
  induction cs generalizing s k with
  | nil => exact h
  | cons c cs ih =>
    have htail := ih (follows_call h c).2
    rw [outcomes, taken_cons, calling]
    split
    · next ht => rwa [if_pos ht, Nat.add_assoc, Nat.add_comm 1] at htail
    · next ht => rwa [if_neg ht] at htail

/-- **Looking ahead takes no token.**  In any sequence of calls of a new scanner a call gives the
result that comes after those taken before it, and what is taken is what calls of `next` alone take.
A look ahead that finds a token gives the one that every call gives until it has been taken. -/
theorem outcomes_follow_readings (source : String) (cs : List Call) :
    let os := (ofText source).outcomes cs
    taken os = (List.range (taken os).length).map (ofText source).reading ∧
      (∀ i o, os[i]? = some o → o.result = (ofText source).reading (taken (os.take i)).length) ∧
      ∀ i j t o, i ≤ j → os[i]? = some ⟨.peek, .ok t⟩ → os[j]? = some o →
        taken ((os.drop i).take (j - i)) = [] → o.result = .ok t := by
  intro os
  have h : Follows (ofText source) 0 (ofText source) := .taken
  have hresult : ∀ i o, os[i]? = some o →
      o.result = (ofText source).reading (taken (os.take i)).length := by
    intro i o hi
    have := result_of_getElem? h hi
    rwa [Nat.zero_add] at this
  refine ⟨?_, hresult, ?_⟩
  · rw [List.range_eq_range']
    exact taken_outcomes h cs
  · intro i j t o hij hi hj hnone
    have hsplit : os.take j = os.take i ++ (os.drop i).take (j - i) := by
      rw [← List.take_add, Nat.add_sub_of_le hij]
    rw [hresult j o hj, hsplit, taken_append, hnone, List.append_nil, ← hresult i _ hi]

/-- Looking ahead twice at a name, at a fault and at the end. -/
example :
    (outcomes (ofText "a $") [.peek, .peek, .next, .peek, .peek, .next]).map Outcome.result =
      [.ok ⟨.id, some "a", 1⟩, .ok ⟨.id, some "a", 1⟩, .ok ⟨.id, some "a", 1⟩,
        .error (.fault ⟨.illegalCharacter '$', 1⟩), .ok (Token.atEnd 1), .ok (Token.atEnd 1)] := by
  decide +kernel

end Scanner

end Token

end DeskCalc
