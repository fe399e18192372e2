namespace FrontEnd.Text

/-- The characters with the property White_Space: the ones that separate tokens and that are
dropped from the end of an excerpt. -/
def isBlank (c : Char) : Bool :=
  let n := c.toNat
  (9 ≤ n && n ≤ 13) || n == 32 || n == 133 || n == 160 || n == 5760 ||
    (8192 ≤ n && n ≤ 8202) || n == 8232 || n == 8233 || n == 8239 || n == 8287 || n == 12288

end FrontEnd.Text
