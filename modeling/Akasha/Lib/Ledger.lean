import Mathlib.Data.List.Basic
import Mathlib.Order.Nat

/-!
# What a store may hold of what it was asked to keep

Clients ask a store to keep entries. The store acknowledges some with a receipt; of others it cannot
say what became of them. `Explains` relates a trace of such answers to entries that a store may hold
then: the acknowledged ones are all there in their order, with the receipts that they were given,
and of the others any may be. `Ledger` is a store some of whose last entries may still be lost by a
crash; each thing that may happen to it has a rule.
-/

namespace Akasha.Lib

open List

/-- What became of an entry as far as the client knows. -/
inductive Answer (α ρ : Type) where
  | acknowledged (entry : α) (receipt : ρ)
  | uncertain (entry : α)

section

variable {α ρ : Type}

/-- Entries that a store may hold after it gave some answers. The receipt of an entry depends on
those before it. -/
inductive Explains (receiptOf : List α → α → ρ) : List (Answer α ρ) → List α → Prop where
  | nil : Explains receiptOf [] []
  | acknowledged {answers : List (Answer α ρ)} {entries : List α} {entry : α}
      (h : Explains receiptOf answers entries) :
      Explains receiptOf (answers ++ [.acknowledged entry (receiptOf entries entry)])
        (entries ++ [entry])
  | kept {answers : List (Answer α ρ)} {entries : List α} {entry : α}
      (h : Explains receiptOf answers entries) :
      Explains receiptOf (answers ++ [.uncertain entry]) (entries ++ [entry])
  | lost {answers : List (Answer α ρ)} {entries : List α} {entry : α}
      (h : Explains receiptOf answers entries) :
      Explains receiptOf (answers ++ [.uncertain entry]) entries

/-- The entry that an answer is about. -/
def Answer.entry : Answer α ρ → α
  | .acknowledged entry _ => entry
  | .uncertain entry => entry

/-- The entries that were acknowledged. -/
def acknowledgedEntries (answers : List (Answer α ρ)) : List α :=
  answers.filterMap fun
    | .acknowledged entry _ => some entry
    | .uncertain _ => none

variable {receiptOf : List α → α → ρ} {answers : List (Answer α ρ)} {entries : List α}

theorem Explains.sublist (h : Explains receiptOf answers entries) :
    entries.Sublist (answers.map Answer.entry) := by
  induction h with
  | nil => exact List.Sublist.refl []
  | acknowledged _ ih =>
      rw [map_append]
      exact ih.append (List.Sublist.refl _)
  | kept _ ih =>
      rw [map_append]
      exact ih.append (List.Sublist.refl _)
  | lost _ ih =>
      rw [map_append]
      exact ih.trans (sublist_append_left _ _)

theorem Explains.acknowledged_sublist (h : Explains receiptOf answers entries) :
    (acknowledgedEntries answers).Sublist entries := by
  unfold acknowledgedEntries
  induction h with
  | nil => exact List.Sublist.refl []
  | acknowledged _ ih =>
      rw [filterMap_append]
      exact ih.append (List.Sublist.refl _)
  | kept _ ih =>
      rw [filterMap_append]
      exact (ih.append (nil_sublist _))
  | lost _ ih =>
      rw [filterMap_append]
      exact (append_nil _).symm ▸ ih

/-- An acknowledged entry is held behind the entries that its receipt was given for. -/
theorem Explains.receipt (h : Explains receiptOf answers entries) {entry : α} {receipt : ρ}
    (hmem : Answer.acknowledged entry receipt ∈ answers) :
    ∃ front, front ++ [entry] <+: entries ∧ receipt = receiptOf front entry := by
  induction h with
  | nil => cases hmem
  | acknowledged _ ih =>
      rename_i answers entries last hprevious
      rcases mem_append.1 hmem with hold | hnew
      · obtain ⟨front, hprefix, hreceipt⟩ := ih hold
        exact ⟨front, hprefix.trans (prefix_append _ _), hreceipt⟩
      · obtain ⟨rfl, rfl⟩ := Answer.acknowledged.inj (mem_singleton.1 hnew)
        exact ⟨entries, prefix_refl _, rfl⟩
  | kept _ ih =>
      rcases mem_append.1 hmem with hold | hnew
      · obtain ⟨front, hprefix, hreceipt⟩ := ih hold
        exact ⟨front, hprefix.trans (prefix_append _ _), hreceipt⟩
      · cases mem_singleton.1 hnew
  | lost _ ih =>
      rcases mem_append.1 hmem with hold | hnew
      · exact ih hold
      · cases mem_singleton.1 hnew

/-- The receipt of a later entry was given for more entries. -/
theorem Explains.ordered (h : Explains receiptOf answers entries) :
    answers.Pairwise fun first second => ∀ entry receipt entry' receipt',
      first = .acknowledged entry receipt → second = .acknowledged entry' receipt' →
        ∃ front back, receipt = receiptOf front entry ∧
          receipt' = receiptOf (front ++ entry :: back) entry' := by
  induction h with
  | nil => exact List.Pairwise.nil
  | @acknowledged answers entries last h ih =>
      refine pairwise_append.2 ⟨ih, pairwise_singleton _ _, ?_⟩
      rintro first hfirst second hsecond entry receipt entry' receipt' rfl rfl
      obtain ⟨front, ⟨back, rfl⟩, hreceipt⟩ := h.receipt hfirst
      obtain ⟨rfl, rfl⟩ := Answer.acknowledged.inj (mem_singleton.1 hsecond)
      refine ⟨front, back, hreceipt, ?_⟩
      rw [append_assoc, singleton_append]
  | @kept answers entries last h ih =>
      refine pairwise_append.2 ⟨ih, pairwise_singleton _ _, ?_⟩
      rintro first hfirst second hsecond entry receipt entry' receipt' rfl rfl
      cases mem_singleton.1 hsecond
  | @lost answers entries last h ih =>
      refine pairwise_append.2 ⟨ih, pairwise_singleton _ _, ?_⟩
      rintro first hfirst second hsecond entry receipt entry' receipt' rfl rfl
      cases mem_singleton.1 hsecond

/-! ## Entries that are not durable yet -/

/-- A store that holds some entries, the first `sure` of which no crash can take. -/
structure Ledger (receiptOf : List α → α → ρ) (answers : List (Answer α ρ)) (entries : List α)
    (sure : Nat) : Prop where
  sure_le : sure ≤ entries.length
  explains : ∀ count, sure ≤ count → count ≤ entries.length →
    Explains receiptOf answers (entries.take count)

variable {sure : Nat}

theorem ledger_nil (receiptOf : List α → α → ρ) : Ledger receiptOf [] [] 0 :=
  ⟨le_rfl, fun _ _ _ => by rw [take_nil]; exact .nil⟩

theorem Ledger.held (h : Ledger receiptOf answers entries sure) :
    Explains receiptOf answers entries := by
  have hall := h.explains entries.length h.sure_le le_rfl
  rwa [take_length] at hall

theorem Ledger.secure (h : Ledger receiptOf answers entries sure) {more : Nat} (hle : sure ≤ more)
    (hmore : more ≤ entries.length) : Ledger receiptOf answers entries more :=
  ⟨hmore, fun count hcount => h.explains count (hle.trans hcount)⟩

theorem Ledger.cut (h : Ledger receiptOf answers entries sure) {count : Nat} (hle : sure ≤ count)
    (hcount : count ≤ entries.length) :
    Ledger receiptOf answers (entries.take count) count := by
  refine ⟨by rw [length_take]; omega, fun shorter hshorter _ => ?_⟩
  rw [take_take, Nat.min_eq_right hshorter]
  exact h.explains count hle hcount

theorem Ledger.acknowledge (h : Ledger receiptOf answers entries sure) (entry : α) :
    Ledger receiptOf (answers ++ [.acknowledged entry (receiptOf entries entry)])
      (entries ++ [entry]) (entries ++ [entry]).length := by
  refine ⟨le_rfl, fun count hcount _ => ?_⟩
  rw [take_of_length_le hcount]
  exact h.held.acknowledged

theorem Ledger.keep (h : Ledger receiptOf answers entries sure) (entry : α) :
    Ledger receiptOf (answers ++ [.uncertain entry]) (entries ++ [entry]) sure := by
  refine ⟨by rw [length_append]; exact Nat.le_add_right_of_le h.sure_le,
    fun count hcount hle => ?_⟩
  by_cases hall : count ≤ entries.length
  · rw [take_append_of_le_length hall]
    exact (h.explains count hcount hall).lost
  · rw [take_of_length_le (by rw [length_append, length_singleton]; omega)]
    exact h.held.kept

theorem Ledger.lose (h : Ledger receiptOf answers entries sure) (entry : α) :
    Ledger receiptOf (answers ++ [.uncertain entry]) entries sure :=
  ⟨h.sure_le, fun count hcount hle => (h.explains count hcount hle).lost⟩

end

end Akasha.Lib
