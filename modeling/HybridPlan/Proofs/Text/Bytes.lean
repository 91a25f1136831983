import HybridPlan.Text.Lines

set_option autoImplicit false

/-! # Bytes of texts

A text has as many bytes as its characters together, and the range of all its bytes is the text. -/

namespace HybridPlan.Text

theorem utf8ByteSize_ofList (cs : List Char) : (String.ofList cs).utf8ByteSize = byteSize cs := by
  induction cs with
  | nil => rfl
  | cons c cs ih =>
    rw [String.ofList_cons, String.utf8ByteSize_append, String.utf8ByteSize_singleton, ih, byteSize_cons]

theorem utf8ByteSize_eq (s : String) : s.utf8ByteSize = byteSize s.toList := by
  rw [← utf8ByteSize_ofList, String.ofList_toList]

theorem slice_whole (s : String) : slice s.toList 0 s.utf8ByteSize = s.toList := by
  have h := slice_append [] s.toList []
  rwa [List.nil_append, List.append_nil, byteSize_nil, Nat.zero_add, ← utf8ByteSize_eq] at h

end HybridPlan.Text
