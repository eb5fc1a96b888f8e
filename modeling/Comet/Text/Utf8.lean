namespace Comet.Text

def utf8Encode (s : String) : List UInt8 := s.toUTF8.toList

/-- The text that the bytes encode, if they are valid UTF-8. -/
def utf8Decode? (bytes : List UInt8) : Option String := String.fromUTF8? ⟨bytes.toArray⟩

end Comet.Text
