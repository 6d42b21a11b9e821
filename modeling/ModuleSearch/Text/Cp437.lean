/-!
# Code page 437

The encoding of old archive names: the lower half is ASCII, the upper half holds accented letters,
frames and signs.
-/

namespace ModuleSearch.Text.Cp437

/-- The characters of the bytes from 0x80 on. -/
def upperHalf : List Char :=
  ("ÇüéâäàåçêëèïîìÄÅÉæÆôöòûùÿÖÜ¢£¥₧ƒáíóúñÑªº¿⌐¬½¼¡«»░▒▓│┤╡╢╖╕╣║╗╝╜╛┐" ++
    "└┴┬├─┼╞╟╚╔╩╦╠═╬╧╨╤╥╙╘╒╓╫╪┘┌█▄▌▐▀αßΓπΣσµτΦΘΩδ∞φε∩≡±≥≤⌠⌡÷≈°∙·√ⁿ²■\u00a0").toList

def char (byte : UInt8) : Char :=
  if byte < 0x80 then Char.ofNat byte.toNat else upperHalf.getD (byte.toNat - 0x80) '?'

def decode (bytes : List UInt8) : String := String.ofList (bytes.map char)

end ModuleSearch.Text.Cp437
