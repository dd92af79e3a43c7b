/-
Keywords and labels of commands.

- `classify_keyword`: the keyword of a command decides what a statement is, whatever stands behind it.
- `Command.ofKeyword_label`: a quoted text behind the keyword is the label when its quotes are single ones; in double quotes
  it is where the arguments begin.
- `classify_label`: both together.
- `exists_lost_label`: a label in double quotes that is lost.
-/
import MissionScript.Proofs.Cell.Part
import MissionScript.Proofs.Lexeme.Quotation
import MissionScript.Statement.Basic

namespace MissionScript

open Quotation

variable {k d a b b₁ b₂ rest : Text} {q : Char}

/-! ## Labels -/

namespace Command

theorem spanLabel_of_single (hd : '\'' ∉ d) (after : Text) :
    spanLabel ('\'' :: (d ++ '\'' :: after)) = some (d, after) := by
  have hpass : ∀ c ∈ d, (c != '\'') = true := fun c hc => bne_iff_ne.2 fun heq => hd (heq ▸ hc)
  have htake : (d ++ '\'' :: after).takeWhile (fun c => c != '\'') = d := by
    rw [List.takeWhile_append_of_pos hpass, List.takeWhile_cons_of_neg (by simp), List.append_nil]
  have hdrop : (d ++ '\'' :: after).dropWhile (fun c => c != '\'') = '\'' :: after := by
    rw [List.dropWhile_append_of_pos hpass, List.dropWhile_cons_of_neg (by simp)]
  simp only [spanLabel, htake, hdrop]

theorem spanLabel_eq_none (hq : q ≠ '\'') (t : Text) : spanLabel (q :: t) = none := by
  unfold spanLabel
  split
  · next heq => exact absurd (List.cons.inj heq).1 hq
  · rfl

theorem trim_quoted (hq : isQuote q = true) (d : Text) : Text.trim (q :: (d ++ [q])) = q :: (d ++ [q]) := by
  have hblank : isBlank q = false := by
    rcases Bool.or_eq_true_iff.1 hq with h | h <;> rw [beq_iff_eq.1 h] <;> rfl
  apply Text.trim_eq_self
  · intro c hc
    obtain rfl : q = c := Option.some.inj hc
    exact hblank
  · intro c hc
    rw [← List.cons_append, List.getLast?_concat] at hc
    obtain rfl : q = c := Option.some.inj hc
    exact hblank

/-- A quoted text behind the keyword is the label when its quotes are single ones, and the arguments begin behind it. In
double quotes it is where the arguments begin. -/
theorem ofKeyword_label (hq : isQuote q = true) (hd : q ∉ d) (ha : Text.trim a = a) (hb₁ : Gap b₁) (hb₂ : Gap b₂) :
    ofKeyword k (b₁ ++ q :: (d ++ q :: (b₂ ++ a))) =
      if q = '\'' then ⟨k, some d, a, .keyword⟩ else ⟨k, none, q :: (d ++ q :: Text.trimEnd (b₂ ++ a)), .keyword⟩ := by
  have htrim : Text.trim (b₁ ++ q :: (d ++ q :: (b₂ ++ a))) = q :: (d ++ q :: Text.trimEnd (b₂ ++ a)) := by
    have hstart : Text.trim (b₁ ++ (q :: (d ++ [q]) ++ (b₂ ++ a))) = Text.trim (q :: (d ++ [q]) ++ (b₂ ++ a)) := by
      have hblank := Text.trim_append_append hb₁.blank Gap.nil.blank (q :: (d ++ [q]) ++ (b₂ ++ a))
      rwa [List.append_nil] at hblank
    have hwhole := Text.trim_append_left (trim_quoted hq d) (by simp) (b₂ ++ a)
    simpa using hstart.trans hwhole
  unfold ofKeyword
  rw [htrim]
  split_ifs with hsingle
  · subst hsingle
    have harguments : Text.trim (Text.trimEnd (b₂ ++ a)) = a := by
      have hblank := Text.trim_append_append hb₂.blank Gap.nil.blank a
      rw [List.append_nil] at hblank
      rw [Text.trim_trimEnd, hblank, ha]
    simp only [spanLabel_of_single hd, harguments]
  · simp only [spanLabel_eq_none hsingle]

end Command

/-! ## Keywords -/

namespace Statement

theorem not_isWordChar_of_endsWord (h : endsWord rest = true) : ∀ c ∈ rest.head?, isWordChar c = false := by
  intro c hc
  cases rest with
  | nil => exact absurd hc (by simp)
  | cons x rest =>
    obtain rfl : x = c := Option.some.inj hc
    simp only [endsWord, Bool.or_eq_true, beq_iff_eq, or_assoc] at h
    rcases h with rfl | rfl | rfl | rfl <;> rfl

theorem endsWord_trimEnd (h : endsWord rest = true) : endsWord (Text.trimEnd rest) = true := by
  obtain ⟨b, -, hrest⟩ := Text.exists_eq_trimEnd_append rest
  cases hend : Text.trimEnd rest with
  | nil => rfl
  | cons c end' =>
    rw [hrest, hend] at h
    exact h

theorem keyword_chars : ∀ k ∈ Command.keywords, (k ≠ [] ∧ k.all isWordChar = true) ∧
    k ≠ declarationKeyword ∧ k ≠ assignmentKeyword := by
  decide +kernel

/-- The keyword of a command decides, whatever stands behind it. -/
theorem classify_keyword (hk : k ∈ Command.keywords) (hends : endsWord rest = true) :
    classify (k ++ rest) = .ok (.command (.ofKeyword k rest)) := by
  obtain ⟨⟨hne, hall⟩, hcreate, hassign⟩ := keyword_chars k hk
  have hword : ∀ c ∈ k, isWordChar c = true := List.all_eq_true.1 hall
  have hvisible : ∀ c ∈ k, isBlank c = false := fun c hc => not_isBlank_of_isWordChar (hword c hc)
  have htrim : Text.trim (k ++ rest) = k ++ Text.trimEnd rest := by
    have hk : Text.trim k = k := Text.trim_eq_self (fun c hc => hvisible c (List.mem_of_mem_head? hc))
      (fun c hc => hvisible c (List.mem_of_mem_getLast? hc))
    exact Text.trim_append_left hk hne rest
  have hends' := endsWord_trimEnd hends
  obtain ⟨htake, hdrop⟩ := Posture.takeWhile_append_of_stop (not_isWordChar_of_endsWord hends') k
  rw [List.takeWhile_eq_self_iff.2 hword] at htake
  rw [List.dropWhile_eq_nil_iff.2 hword, List.nil_append] at hdrop
  have hcommand : Command.ofKeyword k (Text.trimEnd rest) = .ofKeyword k rest := by
    simp only [Command.ofKeyword, Text.trim_trimEnd]
  unfold classify
  rw [htrim]
  simp only [classifyTrimmed, htake, hdrop, hcreate, hassign, hends', false_and, if_false]
  rw [if_pos ⟨List.contains_iff_mem.2 hk, trivial⟩, hcommand]

/-- A keyword with a quoted text behind it is always the command of this keyword. The text is its label, and what follows
the arguments, exactly when the quotes are single ones; in double quotes it becomes part of the arguments. -/
theorem classify_label (hk : k ∈ Command.keywords) (hq : isQuote q = true) (hd : q ∉ d) (ha : Text.trim a = a)
    (hb₁ : Gap b₁) (hb₂ : Gap b₂) :
    classify (k ++ (b₁ ++ q :: (d ++ q :: (b₂ ++ a)))) = .ok (.command
      (if q = '\'' then ⟨k, some d, a, .keyword⟩ else ⟨k, none, q :: (d ++ q :: Text.trimEnd (b₂ ++ a)), .keyword⟩)) := by
  have hends : endsWord (b₁ ++ q :: (d ++ q :: (b₂ ++ a))) = true := by
    cases b₁ with
    | nil =>
      rcases Bool.or_eq_true_iff.1 hq with h | h <;> rw [beq_iff_eq.1 h] <;> rfl
    | cons c b =>
      rcases hb₁ c List.mem_cons_self with rfl | rfl <;> rfl
  rw [classify_keyword hk hends, Command.ofKeyword_label hq hd ha hb₁ hb₂]

theorem classify_label_while :
    classify "While'x = 1' (y == \"=\")".toList = .ok (.command
      ⟨"While".toList, some "x = 1".toList, "(y == \"=\")".toList, .keyword⟩) := by
  have hkeyword : "While".toList ∈ Command.keywords := by decide
  have hfresh : '\'' ∉ "x = 1".toList := by decide
  have harguments : Text.trim "(y == \"=\")".toList = "(y == \"=\")".toList := by decide
  have hgap : Gap [' '] := by simp [Gap]
  exact classify_label hkeyword rfl hfresh harguments Gap.nil hgap

/-- A label in double quotes is lost to the arguments. -/
theorem exists_lost_label : ¬∀ (k d a b₁ b₂ : Text) (q : Char), k ∈ Command.keywords → isQuote q = true → q ∉ d →
    Text.trim a = a → Gap b₁ → Gap b₂ →
    classify (k ++ (b₁ ++ q :: (d ++ q :: (b₂ ++ a)))) = .ok (.command ⟨k, some d, a, .keyword⟩) := by
  intro hall
  have hlabel := hall "Propagate".toList "Coast".toList "Prop(Sat)".toList [' '] [' '] '"' (by decide) (by decide)
    (by decide) (by decide) (by simp [Gap]) (by simp [Gap])
  have hlost : classify "Propagate \"Coast\" Prop(Sat)".toList = .ok (.command
      ⟨"Propagate".toList, none, "\"Coast\" Prop(Sat)".toList, .keyword⟩) := by
    decide +kernel
  exact absurd (hlost.symm.trans hlabel) (by decide)

end Statement

end MissionScript
