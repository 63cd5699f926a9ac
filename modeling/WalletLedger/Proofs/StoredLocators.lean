import Mathlib.Data.Set.Function
import WalletLedger.Chain.Locator

/-!
# The stored form of a locator

A locator is stored as its hashes one after another. Reading cuts a string into parts of the length of a
hash, so that it undoes the joining, and joining undoes the cutting where nothing is left over. The strings
that are read are therefore those of such lengths, and each is the stored form of one list of hashes.

* `BlockLocator.encode_eq_flatten`: what is read from parts is stored as their joint.
* `BlockLocator.exists_decode`: every string of such a length is read.
* `BlockLocator.decode_eq_ok_iff`, `BlockLocator.decode_eq_error_iff`: what reading answers.
* `BlockLocator.encode_bijective`: storing is one to one onto the strings that are read.
-/

namespace WalletLedger

/-- The error for a stored locator names the length of what is stored. -/
theorem message_locator (length : Nat) : (Error.invalidHash (.locator length)).message =
    "Invalid hash in database: block locator of " ++ length.repr ++ " bytes" := by
  have hmessage : (Error.invalidHash (.locator length)).message =
      "Invalid hash in database: " ++ ("block locator of " ++ length.repr ++ " bytes") := rfl
  have hwords : "Invalid hash in database: block locator of " =
      "Invalid hash in database: " ++ "block locator of " := by decide
  rw [hmessage, hwords, String.append_assoc, String.append_assoc, String.append_assoc]

namespace BlockLocator

variable {bs : Bytes} {hashes : List Hash256}

/-- What is read from parts is stored as the string that they make up. -/
theorem encode_eq_flatten {parts : List Bytes} (h : parts.mapM readBlockHash = .ok hashes) :
    encode hashes = parts.flatten := by
  induction parts generalizing hashes with
  | nil =>
    cases h
    rfl
  | cons part parts ih =>
    rw [List.mapM_cons] at h
    obtain ⟨hash, hpart, h⟩ := bind_eq_ok_iff.1 h
    obtain ⟨rest, hrest, h⟩ := bind_eq_ok_iff.1 h
    cases h
    rw [encode, List.flatMap_cons, ← encode, ih hrest, readBlockHash_eq_ok_iff.1 hpart,
      List.flatten_cons]

/-- A string that is a number of hashes long is read. -/
theorem exists_decode (hlength : bs.length % 32 = 0) : ∃ hashes, decode bs = .ok hashes := by
  have hsize : bs.length = 32 * (bs.length / 32) := by omega
  unfold decode
  rw [if_pos hlength]
  refine exists_mapM_eq_ok fun part hpart => ?_
  have hpart32 : part.length = 32 := Bytes.length_of_mem_chunks hsize hpart
  exact ⟨⟨part, hpart32⟩, readBlockHash_eq_ok_iff.2 rfl⟩

/-- Different lists have different stored forms. -/
theorem encode_injective : Function.Injective encode := by
  intro xs ys heq
  have hxs := decode_encode xs
  rw [heq, decode_encode ys, Except.ok.injEq] at hxs
  exact hxs.symm

/-- What is read is stored as the string that it was read from. -/
theorem encode_of_decode (h : decode bs = .ok hashes) : encode hashes = bs := by
  unfold decode at h
  split at h
  · rename_i hlength
    have hsize : bs.length = 32 * (bs.length / 32) := by omega
    rw [encode_eq_flatten h, Bytes.flatten_chunks 32 _ bs hsize]
  · cases h

/-- A string is read if and only if it is a number of hashes long. -/
theorem exists_decode_iff : (∃ hashes, decode bs = .ok hashes) ↔ bs.length % 32 = 0 := by
  constructor
  · rintro ⟨hashes, hread⟩
    rw [← encode_of_decode hread, length_encode]
    exact Nat.mul_mod_right 32 _
  · exact exists_decode

/-- A string is read as a list of hashes if and only if it is the stored form of the list. -/
theorem decode_eq_ok_iff : decode bs = .ok hashes ↔ bs = encode hashes := by
  constructor
  · intro h
    exact (encode_of_decode h).symm
  · rintro rfl
    exact decode_encode hashes

/-- A string is refused if and only if it is not a number of hashes long, and then for its length. -/
theorem decode_eq_error_iff {e : Error} :
    decode bs = .error e ↔ bs.length % 32 ≠ 0 ∧ e = .invalidHash (.locator bs.length) := by
  by_cases hlength : bs.length % 32 = 0
  · obtain ⟨hashes, hread⟩ := exists_decode hlength
    rw [hread]
    exact iff_of_false nofun fun h => h.1 hlength
  · unfold decode
    rw [if_neg hlength, Except.error.injEq]
    exact ⟨fun h => ⟨hlength, h.symm⟩, fun h => h.2.symm⟩

/-- **Storing locators is one to one onto the strings that are read.** A stored list is read back; a string
is read just if its length is a multiple of 32, and then it is the stored form of what is read; any other
string is refused with an error that names its length. -/
theorem encode_bijective :
    Set.BijOn encode Set.univ {bs | ∃ hashes, decode bs = .ok hashes} ∧
    (∀ hashes, decode (encode hashes) = .ok hashes) ∧
    (∀ bs hashes, decode bs = .ok hashes ↔ encode hashes = bs) ∧
    (∀ bs, (∃ hashes, decode bs = .ok hashes) ↔ 32 ∣ bs.length) ∧
    (∀ bs e, decode bs = .error e ↔ ¬32 ∣ bs.length ∧ e = .invalidHash (.locator bs.length)) ∧
    ∀ length, (Error.invalidHash (.locator length)).message =
      "Invalid hash in database: block locator of " ++ length.repr ++ " bytes" := by
  refine ⟨⟨fun hashes _ => ⟨hashes, decode_encode hashes⟩, encode_injective.injOn, ?_⟩, decode_encode,
    fun bs hashes => ?_, fun bs => ?_, fun bs e => ?_, fun length => ?_⟩
  · rintro bs ⟨hashes, hread⟩
    exact ⟨hashes, Set.mem_univ hashes, encode_of_decode hread⟩
  · rw [decode_eq_ok_iff, eq_comm]
  · rw [Nat.dvd_iff_mod_eq_zero, exists_decode_iff]
  · rw [Nat.dvd_iff_mod_eq_zero, decode_eq_error_iff]
  · exact message_locator length

end BlockLocator

end WalletLedger
