import WalletLedger.Script

/-!
# Watched scripts

The scripts that a scanner of blocks has to look for, each held once.

* `WatchList.mem_insert`, `WatchList.mem_extend`: what is watched after additions.
-/

namespace WalletLedger

/-- A set of scripts. -/
structure WatchList where
  scripts : List Script
  nodup : scripts.Nodup

namespace WatchList

/-- Watches nothing. -/
def empty : WatchList := ⟨[], List.nodup_nil⟩

/-- Whether a script is watched. -/
def contains (w : WatchList) (script : Script) : Bool := w.scripts.contains script

/-- Watches a script as well. -/
def insert (w : WatchList) (script : Script) : WatchList :=
  if h : script ∈ w.scripts then w
  else ⟨script :: w.scripts, List.nodup_cons.2 ⟨h, w.nodup⟩⟩

/-- Watches several scripts as well. -/
def extend (w : WatchList) (scripts : List Script) : WatchList := scripts.foldl insert w

/-- Watches the scripts of a list. -/
def ofList (scripts : List Script) : WatchList := empty.extend scripts

/-- How many scripts are watched. -/
def size (w : WatchList) : Nat := w.scripts.length

theorem contains_iff {w : WatchList} {script : Script} :
    w.contains script = true ↔ script ∈ w.scripts := List.contains_iff_mem

theorem mem_insert {w : WatchList} {a b : Script} :
    b ∈ (w.insert a).scripts ↔ b = a ∨ b ∈ w.scripts := by
  unfold insert
  split
  · rename_i h
    exact ⟨Or.inr, fun hb => hb.elim (fun e => e ▸ h) id⟩
  · exact List.mem_cons

theorem mem_extend {w : WatchList} {scripts : List Script} {b : Script} :
    b ∈ (w.extend scripts).scripts ↔ b ∈ w.scripts ∨ b ∈ scripts := by
  induction scripts generalizing w with
  | nil => simp [extend]
  | cons a scripts ih =>
    have h : w.extend (a :: scripts) = (w.insert a).extend scripts := rfl
    rw [h, ih, mem_insert, List.mem_cons]
    exact ⟨fun h => by rcases h with (h | h) | h <;> simp [h],
      fun h => by rcases h with h | h | h <;> simp [h]⟩

end WatchList

end WalletLedger
