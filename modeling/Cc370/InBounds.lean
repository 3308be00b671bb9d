import Cc370.Ld370.DeckReads
import Cc370.Ld370.MemberReads
import Cc370.Xmit370.Payload

namespace Cc370

open Reads Ld370 Xmit370

theorem ofBytes_behind {l : List UInt8} {k : ℕ} (h : l.length ≤ k) : ofBytes l k ≠ 0xFF := by
  rw [ofBytes, List.getD_eq_default _ _ h]
  decide

/-- When the readers stay inside the bytes that they are given. -/
theorem readers_within_iff (l : List UInt8) :
    (Within l.length (deckReads ⟨ofBytes l, l.length⟩) ↔ DeckFits ⟨ofBytes l, l.length⟩) ∧
    (Within l.length (Ld370.memberReads (ofBytes l) l.length) ↔ MemberFits (ofBytes l) l.length) ∧
    (Within l.length geomReads ↔ 78 ≤ l.length) ∧
    (∀ hdrlen, Within l.length (readDirectoryReads (ofBytes l) l.length hdrlen) ↔ DirectoryFits (ofBytes l) l.length hdrlen) ∧
    (∀ dataOff g tt r, Within l.length (memberBytesReads (ofBytes l) l.length dataOff g tt r) ↔ RecordsFit (ofBytes l) l.length dataOff g tt r) ∧
    ∀ hdrlen, Within l.length (extractReads (ofBytes l) l.length hdrlen) ↔ ExtractFits (ofBytes l) l.length hdrlen := by
  refine ⟨deckReads_within _, memberReads_within, geomReads_within, ?_, ?_, ?_⟩
  · intro hdrlen
    exact readDirectoryReads_within (fun _ => ofBytes_behind) hdrlen
  · intro dataOff g tt r
    exact memberReads_within g _ _ _ _
  · intro hdrlen
    exact extractReads_within (fun _ => ofBytes_behind) hdrlen

/-- A card with more text than it holds, and an image that ends in its first header. -/
theorem readers_outside :
    ¬ Within 80 (deckReads ⟨ofBytes ([0x02, 0xE3, 0xE7, 0xE3, 0x40, 0, 0, 0, 0x40, 0x40, 0, 100] ++ List.replicate 68 0x40), 80⟩) ∧
      ¬ Within 16 (extractReads (ofBytes (List.replicate 16 0)) 16 0) := by
  constructor
  · intro h
    have hfits := (deckReads_within ⟨ofBytes ([0x02, 0xE3, 0xE7, 0xE3, 0x40, 0, 0, 0, 0x40, 0x40, 0, 100] ++ List.replicate 68 0x40), 80⟩).mp h
    exact absurd ((hfits 0 (by decide)).txt (by decide) (by decide)) (by decide)
  · rw [extractReads_within fun k hk => ofBytes_behind (by simpa using hk)]
    rintro (h | ⟨h, -⟩)
    · exact absurd h (by decide)
    · exact absurd h (by decide)

end Cc370
