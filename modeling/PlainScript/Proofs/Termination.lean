import PlainScript.Proofs.Idles
import PlainScript.Proofs.Scanning

/-!
# Every source is parsed

The depth of nested goals that parsing needs is bounded by the size of the source. Before an error a
goal needs six levels for each part of the text that is left, and its rank; after an error it needs its
rank alone. `meet_meets` shows by induction on the depth that every goal with this much credit is
met, from what one rule does (`runs_rule` and `idles_rule`). So neither the depth nor a loop of the
parser ever runs out of steps, and a parse halts for no reason but an escape that cuts a character.
-/

namespace PlainScript.Grammar

open Parse

variable {s : Source} {d : Dialect} {σ τ : State} {env : Env} {g : Goal}

/-! ## One level -/

/-- A rule that is entered with the cost of its goal as credit meets the goal. -/
theorem rule_ends {credit : Nat} (henv : env.Meets credit) (hσ : Sane env.source σ)
    (hcredit : cost env.source g.rank σ = credit) :
    Ends env.source (fun _ τ => g.Met env.source σ τ) (rule g env σ) := by
  have hrank := g.rank_lt
  have hhere : Affords env.source credit σ.scopeDepth g.rank 0 σ :=
    ⟨hσ, Nat.le_of_eq hcredit, Nat.le_refl _⟩
  have hruns : Runs ⟨σ, g.rank, 0⟩ g.rank 0 (rule g) (if g.moves then 6 else g.rank) 0 := runs_rule g
  refine (hruns.ends ⟨henv, hhere, hhere, List.prefix_rfl⟩ trivial).mono fun _ τ hτ => ?_
  refine ⟨hτ.here.sane, ?_, hτ.here.depth, hτ.spans⟩
  have hcost := hτ.here.cost
  rw [← hcredit] at hcost
  -- A rule that moves has paid for a lexeme; after an error nothing is paid any more.
  rcases hσ with hlive | hstopped
  · have hpos := left_pos env.source σ
    rw [hlive.cost_eq] at hcost ⊢
    rcases hτ.here.sane with hlive' | hstopped'
    · rw [hlive'.cost_eq] at hcost ⊢
      cases hmoves : g.moves <;> simp only [hmoves, if_true, Bool.false_eq_true, if_false] at hcost ⊢ <;>
        omega
    · rw [hstopped'.cost_eq]
      omega
  · rw [hstopped.cost_eq] at hcost ⊢
    have hafford : Affords env.source 5 0 _ 0 τ := ⟨hτ.here.sane, hcost, Nat.zero_le _⟩
    exact Nat.le_of_eq (hafford.stopped.cost_eq _)

theorem Goal.stopped_of_need_lt (hσ : Sane s σ) (hneed : g.need s σ < 5) : Stopped s σ := by
  refine hσ.resolve_left fun hlive => ?_
  have hpos := left_pos s σ
  rw [Goal.need, if_pos hlive.clear] at hneed
  omega

/-- If the goals below a rank are met after an error, all goals are met where the others do nothing. -/
theorem Env.Meets.capped {n b : Nat} (henv : env.Meets n) (hb : b ≤ n) : (env.capped b).Meets 5 := by
  intro g σ hσ hneed
  have hstopped : Stopped env.source σ := Goal.stopped_of_need_lt hσ hneed
  change Ends env.source _ ((if g.rank < b then env.recur g else fun σ => .ok (false, σ)) σ)
  split
  case isTrue hlt =>
    refine henv g σ hσ ?_
    rw [Goal.need, if_neg hstopped.failed]
    omega
  case isFalse =>
    have hcost : ∀ a, cost env.source a σ = 5 := hstopped.cost_eq
    exact ⟨hσ, Nat.le_of_eq ((hcost _).trans (hcost _).symm), Nat.le_refl _, List.prefix_rfl⟩

theorem Env.Meets.rule {n : Nat} (henv : env.Meets n) (hσ : Sane env.source σ)
    (hneed : g.need env.source σ ≤ n) :
    Ends env.source (fun _ τ => g.Met env.source σ τ) (rule g env σ) := by
  have hrank := g.rank_lt
  rcases hσ with hlive | hstopped
  · rw [Goal.need, if_pos hlive.clear] at hneed
    refine rule_ends (henv.mono ?_) (.inl hlive) rfl
    rw [hlive.cost_eq]
    omega
  · -- What is left does not bound the depth here, but the rule reaches only goals of lower rank.
    rw [Goal.need, if_neg hstopped.failed] at hneed
    have hcapped := henv.capped hneed
    rw [(idles_rule g).eq hcapped hstopped]
    exact rule_ends hcapped (.inr hstopped) (hstopped.cost_eq _)

/-! ## All levels -/

/-- Every goal is met in as many nested steps as it needs. -/
theorem meet_meets (s : Source) (d : Dialect) (n : Nat) : Env.Meets ⟨s, d, meet s d n⟩ n := by
  induction n with
  | zero => exact fun _ _ _ hneed => absurd hneed (Nat.not_lt_zero _)
  | succ n ih => exact fun g σ hσ hneed => ih.rule hσ (Nat.le_of_lt_succ hneed)

theorem readCode_first (s : Source) (d : Dialect) (recur : Goal → Step Bool) :
    Ends s (fun _ τ => Sane s τ) (readCode ⟨s, d, recur⟩ {}) := by
  have hends : Ends s _ (readCode ⟨s, d, recur⟩ {}) :=
    readCode_ends (.inl rfl) fun _ => s.isBoundary_zero
  refine hends.withRun.mono fun _ τ hτ => ?_
  obtain ⟨hrun, -, hstopped⟩ := hτ
  cases hclear : τ.error? with
  | some e => exact .inr (hstopped (by simp [hclear]))
  | none =>
    exact .inl ⟨hclear, tiled_of_readCode hrun hclear,
      (readCode_current hrun hclear (Nat.zero_le _)).2⟩

theorem file_ends {recur : Goal → Step Bool} {credit : Nat}
    (hmeets : Env.Meets ⟨s, d, recur⟩ credit) (hcredit : 6 * s.size + 16 ≤ credit) :
    Ends s (fun _ τ => Sane s τ) (file ⟨s, d, recur⟩ {}) := by
  refine (readCode_first s d recur).bind fun _ τ hτ => ?_
  -- Nothing has been consumed yet, so what is left is at most the whole text.
  have hcost : cost s 4 τ ≤ credit := by
    have hleft := left_le s τ
    unfold cost
    split <;> omega
  have hhere : Affords s credit 0 4 0 τ := ⟨hτ, hcost, Nat.zero_le _⟩
  have hrest : Runs ⟨τ, 4, 0⟩ 4 0 (do blockBody .eof; recordScope 0 true) 4 0 := inferInstance
  exact (hrest.ends ⟨hmeets, hhere, hhere, List.prefix_rfl⟩ trivial).mono fun _ _ h => h.here.sane

theorem file_meet_ends (d : Dialect) {n : Nat} (hn : 6 * s.size + 16 ≤ n) :
    Ends s (fun _ τ => Sane s τ) (file ⟨s, d, meet s d n⟩ {}) :=
  file_ends (meet_meets s d n) hn

/-- A parse halts only if an escape cuts a character. -/
theorem parse_excused {e : Halt} (h : parse s d = .error e) : Excused s e := by
  have hdepth : 6 * s.size + 16 ≤ depthLimit s := by
    unfold depthLimit
    omega
  have hends := file_meet_ends d hdepth
  rw [parse_eq] at h
  cases hrun : file ⟨s, d, meet s d (depthLimit s)⟩ {} with
  | error e' =>
    rw [hrun] at h hends
    cases h
    exact hends
  | ok result =>
    rw [hrun] at h
    cases h

/-! ## Main statements -/

/-- No scan, no loop and no depth of nested rules runs out of steps, for bounds that are known from
the size of the source. -/
theorem parse_terminates (s : Source) (d : Dialect) :
    s.ScansEnd ∧ parse s d ≠ .error .budget ∧
      ∀ n, 6 * s.size + 16 ≤ n → (file.run ⟨s, d, meet s d n⟩).run {} ≠ .error .budget := by
  refine ⟨s.scansEnd, ?_, ?_⟩
  · intro h
    obtain ⟨-, a, b, htorn⟩ := parse_excused h
    cases htorn
  · intro n hn h
    have hends : Ends s (fun _ τ => Sane s τ) ((file.run ⟨s, d, meet s d n⟩).run {}) :=
      file_meet_ends d hn
    rw [h] at hends
    obtain ⟨-, a, b, htorn⟩ := hends
    cases htorn

end PlainScript.Grammar

namespace PlainScript.AnnotatedFile

end PlainScript.AnnotatedFile
