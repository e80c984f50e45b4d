import DeskCalc.Proofs.Production.Local
import DeskCalc.Proofs.Program.Sentence

/-!
# Viable tokens

Tokens are viable if some sentence starts with their kinds.  What a production has taken by the time
it stops is viable, and with a token in front that is not as expected it no longer is: on a sentence
with that token the statements would be read to the end, and by locality they would also stop.

* `Derivation.noEnd_of_isProgram` : the end token of a program stands last, and only there.
* `Syntax.viable_of_begins` : what has been taken is viable.
* `Syntax.not_viable_of_run` : no sentence goes on with a token that is not as expected.
-/

namespace DeskCalc

open Token (Feed)
open DeskCalc.Derivation

/-! ### The end token comes last -/

namespace Derivation

variable {level : Level} {R : List Token → Expr → Prop} {ts : List Token}

/-- No token of `ts` is the end token. -/
def NoEnd (ts : List Token) : Prop := ∀ t ∈ ts, t.kind ≠ .eof

theorem noEnd_append {us : List Token} (h : NoEnd ts) (h' : NoEnd us) : NoEnd (ts ++ us) :=
  fun t ht => (List.mem_append.1 ht).elim (h t) (h' t)

theorem noEnd_cons {t : Token} (h : t.kind ≠ .eof) (h' : NoEnd ts) : NoEnd (t :: ts) :=
  List.forall_mem_cons.2 ⟨h, h'⟩

theorem noEnd_singleton {t : Token} (h : t.kind ≠ .eof) : NoEnd [t] :=
  noEnd_cons h fun _ hu => by cases hu

theorem noEnd_of_isOperand {e : Expr} (h : IsOperand ts e) : NoEnd ts := by
  cases h with
  | const h =>
    refine noEnd_singleton fun he => ?_
    rw [he] at h
    cases h
  | deref h => exact noEnd_singleton (by rw [h]; decide)

theorem noEnd_of_isTail (hR : ∀ us e, R us e → NoEnd us) {pairs : List (Operator × Expr)}
    (h : IsTail level R ts pairs) : NoEnd ts := by
  induction h with
  | nil => exact fun t ht => by cases ht
  | @cons t op ts us e pairs hop hlevel he hrest ih =>
    refine noEnd_append (noEnd_cons (fun heof => ?_) (hR _ _ he)) ih
    rw [heof] at hop
    cases hop

theorem noEnd_of_isChain (hR : ∀ us e, R us e → NoEnd us) {e : Expr}
    (h : IsChain level R ts e) : NoEnd ts := by
  obtain ⟨he, hrest⟩ := h
  exact noEnd_append (hR _ _ he) (noEnd_of_isTail hR hrest)

theorem noEnd_of_isExpr {e : Expr} (h : IsExpr ts e) : NoEnd ts :=
  noEnd_of_isChain (fun _ _ ht => noEnd_of_isChain (fun _ _ hv => noEnd_of_isOperand hv) ht) h

theorem noEnd_of_isStmt {s : Stmt} (h : IsStmt ts s) : NoEnd ts := by
  have hne : ∀ {t : Token} {k : Token.Kind}, t.kind = k → k ≠ .eof → t.kind ≠ .eof :=
    fun h hk => h ▸ hk
  have htype : ∀ {t : Token} {type : NumType}, NumType.ofKeyword? t.kind = some type →
      t.kind ≠ .eof := by
    intro t type h he
    rw [he] at h
    cases h
  cases h with
  | decl ht hid hsemi =>
    exact noEnd_cons (htype ht) (noEnd_cons (hne hid (by decide))
      (noEnd_singleton (hne hsemi (by decide))))
  | declInit ht hid heq he hsemi =>
    exact noEnd_append (noEnd_cons (htype ht) (noEnd_cons (hne hid (by decide))
      (noEnd_cons (hne heq (by decide)) (noEnd_of_isExpr he))))
      (noEnd_singleton (hne hsemi (by decide)))
  | assign hid heq he hsemi =>
    exact noEnd_append (noEnd_cons (hne hid (by decide)) (noEnd_cons (hne heq (by decide))
      (noEnd_of_isExpr he))) (noEnd_singleton (hne hsemi (by decide)))
  | compound hid heq hop he hsemi =>
    exact noEnd_append (noEnd_cons (hne hid (by decide)) (noEnd_cons (hne heq (by decide))
      (noEnd_of_isExpr he))) (noEnd_singleton (hne hsemi (by decide)))
  | print ht hid hsemi =>
    exact noEnd_cons (hne ht (by decide)) (noEnd_cons (hne hid (by decide))
      (noEnd_singleton (hne hsemi (by decide))))

theorem noEnd_of_isProgram {p : Program} (h : IsProgram ts p) :
    ∃ us t, ts = us ++ [t] ∧ t.kind = .eof ∧ NoEnd us := by
  induction h with
  | @nil t ht => exact ⟨[], t, rfl, ht, fun u hu => by cases hu⟩
  | @cons ts us s p hs hp ih =>
    obtain ⟨vs, t, rfl, ht, hvs⟩ := ih
    exact ⟨ts ++ vs, t, (List.append_assoc ..).symm, ht, noEnd_append (noEnd_of_isStmt hs) hvs⟩

end Derivation

/-! ### Viable tokens -/

namespace Token

/-- A text that a token of the given kind can carry. -/
def Kind.sample : Kind → Option String
  | int => some "0"
  | float => some "0.0"
  | id => some "x"
  | opAssign => some "+="
  | _ => none

theorem Kind.spelled_sample (k : Kind) : Spelled k k.sample := by
  cases k with
  | int => exact ⟨"0", rfl, by simp, by simp⟩
  | float =>
    exact ⟨"0.0", rfl, ['0'], ['0'], by simp, ⟨by simp, by simp⟩, ⟨by simp, by simp⟩, by decide⟩
  | id => exact ⟨"x", rfl, by decide, by decide⟩
  | opAssign => exact ⟨'+', by decide, by decide⟩
  | _ => rfl

end Token

namespace Syntax

open Production Token.Feed

/-- Some sentence of the grammar starts with the kinds of the tokens. -/
def Viable (ts : List Token) : Prop := ∃ ks, ts.map Token.kind ++ ks ∈ grammar.language

theorem Viable.of_prefix {ts us : List Token} (h : Viable us) (hp : ts <+: us) : Viable ts := by
  obtain ⟨ks, hks⟩ := h
  obtain ⟨vs, rfl⟩ := hp
  rw [List.map_append, List.append_assoc] at hks
  exact ⟨_, hks⟩

/-- Where viable tokens stop being viable, the beginnings that are not are the longer ones. -/
theorem isLeast_not_viable {ts : List Token} {t : Token} (us : List Token) (hv : Viable ts)
    (hnot : ¬ Viable (ts ++ [t])) :
    IsLeast {n | ¬ Viable ((ts ++ [t] ++ us).take n)} (ts.length + 1) := by
  constructor
  · change ¬ Viable ((ts ++ [t] ++ us).take (ts.length + 1))
    rwa [List.take_left' (by simp)]
  · intro n hn
    by_contra hlt
    refine hn (hv.of_prefix ?_)
    rw [List.append_assoc, List.take_append_of_le_length (by omega)]
    exact List.take_prefix n ts

theorem viable_of_begins {ts : List Token}
    (h : Begins (fun us p => ∀ t : Token, t.kind = .eof → IsProgram (us ++ [t]) p) ts) :
    Viable ts := by
  obtain ⟨us, p, hp, ks, hks⟩ := h
  have hlang := mem_language_of_isProgram (hp (Token.atEnd 0) rfl)
  rw [List.map_append, ← hks, List.append_assoc] at hlang
  exact ⟨_, hlang⟩

/-- **No sentence goes on with a token that is not as expected.**  The statements would be read to
the end of such a sentence, but on the tokens up to here reading has stopped. -/
theorem not_viable_of_run {f f' : Feed} {ts : List Token} {t : Token} {d : Diagnostic}
    (hspell : ∀ u ∈ ts ++ [t], Token.Spelled u.kind u.value)
    (hrun : (statements .standard).run f = (.error d, f')) (hf : f.After ts f')
    (ht : f'.peek.1 = .ok t) : ¬ Viable (ts ++ [t]) := by
  rintro ⟨ks, hks⟩
  -- the rest of the sentence, with tokens for its kinds
  let rest : List Token := ks.map fun k => ⟨k, k.sample, 0⟩
  have hkinds : (ts ++ [t] ++ rest).map Token.kind = (ts ++ [t]).map Token.kind ++ ks := by
    simp [rest, Function.comp_def]
  have hrest : ∀ u ∈ rest, Token.Spelled u.kind u.value := by
    intro u hu
    obtain ⟨k, -, rfl⟩ := List.mem_map.1 hu
    exact k.spelled_sample
  rw [← hkinds] at hks
  obtain ⟨p, hp⟩ := exists_isProgram
    (fun u hu => (List.mem_append.1 hu).elim (hspell u) (hrest u)) hks
  obtain ⟨us, eof, hus, heof, hne⟩ := noEnd_of_isProgram hp
  rw [hus] at hp
  have hread : (statements .standard).run ⟨us.map .ok ++ [.ok eof], 0⟩ = (.ok p, ⟨[.ok eof], 0⟩) :=
    run_statements hp ⟨rfl, rfl, hne⟩ rfl
  -- the feed of the sentence starts as `f` does
  obtain ⟨taken, htaken, hsame⟩ := localAt_statements .standard f
  rw [hrun] at htaken hsame
  have htaken : taken = ts.map .ok := by
    have hpending := congrArg Feed.pending htaken
    rw [hf.pending] at hpending
    exact (List.append_cancel_right hpending).symm
  have hstop := hsame (.ok t :: rest.map .ok) 0 ht.symm
  have hfeed : us.map .ok ++ [.ok eof] = taken ++ .ok t :: rest.map (Except.ok (ε := Diagnostic)) := by
    rw [htaken]
    have hmap := congrArg (List.map (Except.ok (ε := Diagnostic))) hus
    simpa using hmap.symm
  rw [← hfeed, hread] at hstop
  cases hstop

end Syntax

end DeskCalc
