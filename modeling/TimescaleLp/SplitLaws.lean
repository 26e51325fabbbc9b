import TimescaleLp.Decoding

/-!
What the splitters of the parser promise. Parts and their join determine each
other, since the scan restarts at a part boundary as at the start of the text;
the head decoder uses two nested splits and takes off the escapes at the end.
-/
namespace TimescaleLp.LineProtocol

open Escaping

/-- Both splitters take texts apart and find parts again. -/
theorem splitTop_splits :
    (∀ sep ∈ delimiters, ∀ respectQuotes,
        Splits '\\' '"' sep respectQuotes fun s => splitTop s sep respectQuotes) ∧
      Splits '\\' '"' ' ' true splitTopSpace ∧
      ∀ s, splitTopSpace s = splitTop s ' ' true := by
  have hsplits : ∀ sep ∈ delimiters, ∀ respectQuotes,
      Splits '\\' '"' sep respectQuotes fun s => splitTop s sep respectQuotes := by
    intro sep hsep respectQuotes
    have hne := ne_of_mem_delimiters hsep
    exact splits_split (by decide) hne.1 hne.2
  refine ⟨hsplits, ?_, splitTopSpace_eq⟩
  rw [show splitTopSpace = fun s => splitTop s ' ' true from funext splitTopSpace_eq]
  exact hsplits ' ' (by decide) true

/-- A quoted space and an escaped comma end outside quotes, the last part does not. -/
theorem splitTop_splits_quoted :
    splitTop (List.intercalate [','] ["\"a b\"".toList, "x\\,y".toList, "z=\"".toList]) ',' true =
      ["\"a b\"".toList, "x\\,y".toList, "z=\"".toList] :=
  (splitTop_splits.1 ',' (by decide) true).parts _ (by decide) (by decide +kernel)
    (by decide +kernel)

example : endsOutside '\\' '"' true "z=\"".toList = false ∧
    endsOutside '\\' '"' false "z=\"".toList = true ∧
    endsOutside '\\' '"' false "z\\".toList = false := by
  decide

/-- The head decoder reads an escaped head back, whatever the names hold. -/
theorem parseHead_escaped {m : Str} (hm : m ≠ []) {tags : List (Str × Str)}
    (hdistinct : (tags.map Prod.fst).Nodup) (hkeys : ∀ tag ∈ tags, tag.1 ≠ []) :
    (parseHead (encodeHead m tags)).map (fun r => (r.1, r.2.entries)) = .ok (m, tags) := by
  have hread := parseHead_encodeHead hm ⟨tags, hdistinct⟩ (List.forall_mem_map.mpr hkeys)
  rw [show encodeHead m tags = encodeHead m (Dict.entries ⟨tags, hdistinct⟩) from rfl, hread]
  rfl

/-- Names that end in a backslash, a name with an equals sign, an empty value. -/
theorem parseHead_escaped_backslash :
    (parseHead (encodeHead "m\\".toList [("a=\\".toList, []), ("\"".toList, "b ,\\".toList)])).map
      (fun r => (r.1, r.2.entries)) =
    .ok ("m\\".toList, [("a=\\".toList, []), ("\"".toList, "b ,\\".toList)]) :=
  parseHead_escaped (by decide) (by decide) (by decide)

end TimescaleLp.LineProtocol
