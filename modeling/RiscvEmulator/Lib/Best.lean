/-! # Scans for a best element

A loop over a list keeps the best element so far: one of those that have a value, with
the greatest value, and the first of them where values are equal. -/
namespace RiscvEmulator.Lib.Best

variable {α β : Type} [LT β] [DecidableLT β]

/-- One turn of the loop. An element without a value is passed over. -/
def keepBetter (value : α → Option β) (best : α × β) (a : α) : α × β :=
  match value a with
  | some b => if best.2 < b then (a, b) else best
  | none => best

variable {value : α → Option β} {best : α × β} {a : α} {b : β}

theorem keepBetter_of_lt (h : value a = some b) (hlt : best.2 < b) :
    keepBetter value best a = (a, b) := by
  simp [keepBetter, h, hlt]

variable [LE β] [Std.IsLinearOrder β] [Std.LawfulOrderLT β]

theorem keepBetter_of_le (h : ∀ b, value a = some b → b ≤ best.2) :
    keepBetter value best a = best := by
  unfold keepBetter
  split
  · next b hb => exact if_neg (Std.not_lt.mpr (h b hb))
  · rfl

/-- The loop keeps what it begins with, if nothing in the list is better; otherwise it
ends with an element of the list that is better than all before it and no worse than
any after it. -/
theorem foldl_keepBetter (value : α → Option β) (l : List α) (best : α × β) :
    (l.foldl (keepBetter value) best = best ∧ ∀ x ∈ l, ∀ c, value x = some c → c ≤ best.2) ∨
    ∃ before a after b, l = before ++ a :: after ∧ value a = some b ∧
      l.foldl (keepBetter value) best = (a, b) ∧ best.2 < b ∧
      (∀ x ∈ before, ∀ c, value x = some c → c < b) ∧
      ∀ x ∈ after, ∀ c, value x = some c → c ≤ b := by
  induction l generalizing best with
  | nil => exact .inl ⟨rfl, nofun⟩
  | cons a l ih =>
    rw [List.foldl_cons]
    by_cases hbetter : ∃ b, value a = some b ∧ best.2 < b
    · -- `a` takes over, and may be replaced later on by a better one still
      obtain ⟨b, hb, hlt⟩ := hbetter
      rw [keepBetter_of_lt hb hlt]
      right
      rcases ih (a, b) with ⟨hkept, hrest⟩ |
        ⟨before, a', after, b', hl, hb', hend, hlt', hbefore, hafter⟩
      · exact ⟨[], a, l, b, rfl, hb, hkept, hlt, nofun, hrest⟩
      · refine ⟨a :: before, a', after, b', by rw [hl]; rfl, hb', hend, Std.lt_trans hlt hlt', ?_,
          hafter⟩
        intro x hx c hc
        rcases List.mem_cons.mp hx with rfl | hx
        · rw [hb] at hc
          cases hc
          exact hlt'
        · exact hbefore x hx c hc
    · have hle : ∀ b, value a = some b → b ≤ best.2 :=
        fun b hb => Std.not_lt.mp fun hlt => hbetter ⟨b, hb, hlt⟩
      rw [keepBetter_of_le hle]
      rcases ih best with ⟨hkept, hrest⟩ |
        ⟨before, a', after, b', hl, hb', hend, hlt', hbefore, hafter⟩
      · refine .inl ⟨hkept, fun x hx => ?_⟩
        rcases List.mem_cons.mp hx with rfl | hx
        · exact hle
        · exact hrest x hx
      · refine .inr ⟨a :: before, a', after, b', by rw [hl]; rfl, hb', hend, hlt', ?_, hafter⟩
        intro x hx c hc
        rcases List.mem_cons.mp hx with rfl | hx
        · exact Std.lt_of_le_of_lt (hle c hc) hlt'
        · exact hbefore x hx c hc

end RiscvEmulator.Lib.Best
