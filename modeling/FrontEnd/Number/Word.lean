namespace FrontEnd.Word

def limit : Nat :=
  18446744073709551616

def signedLimit : Nat :=
  9223372036854775808

end FrontEnd.Word
