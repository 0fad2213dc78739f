/-!
# Lines of a text

A line ends with a line feed, before which a carriage return may stand.
-/

namespace DataCatalog.Text

def firstLine (s : List Char) : List Char :=
  match s with
  | [] => []
  | '\n' :: _ => []
  | '\r' :: '\n' :: _ => []
  | c :: rest => c :: firstLine rest

theorem lineFeed_notMem_firstLine (s : List Char) : '\n' ∉ firstLine s := by
  fun_induction firstLine s with
  | case1 => simp
  | case2 => simp
  | case3 => simp
  | case4 c rest hfeed _ ih =>
    rw [List.mem_cons, not_or]
    exact ⟨fun he => hfeed he.symm, ih⟩

example : firstLine "a\rb\r\nc".toList = "a\rb".toList := by decide

end DataCatalog.Text
