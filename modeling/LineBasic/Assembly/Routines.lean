import LineBasic.Assembly.Listing

/-!
# The fixed parts of generated programs

Every generated program opens with the same preamble and ends with the same routines, which read
and print through the services of DOS.

Main definitions:

- `preamble`: what stands before the code of the first line.
- `routines`: what stands behind the storage of a program, one block for each routine.
-/

namespace LineBasic.Assembly

/-- What stands before the code of the first line. -/
def preamble : List Item :=
  [.comment "Generated by tiny. Assemble with: nasm -f bin -o PROGRAM.COM PROGRAM.ASM",
    .comment "DOS .COM image: code, data and stack share one segment.",
    .blank,
    .directive (.bits 16),
    .directive (.origin (.hex 3 0x100)),
    .blank,
    .instr .cld]

/-- The line above and below a heading. -/
def ruler : Item :=
  .comment (String.ofList (List.replicate 75 '-'))

/-- The heading of the routines. -/
def routinesHeading : List Item :=
  [.blank, ruler, .comment "Runtime support", ruler]

/-- The call of a service of DOS. -/
def dosCall : Instr :=
  .int (.hex 2 0x21)

/-- A jump on a condition to a place of the same routine. -/
def jumpIf (cond : Condition) (s : Spot) : Instr :=
  .jump cond (.inner s)

/-- A jump to a place of the same routine. -/
def jumpTo (s : Spot) : Instr :=
  .jmp (.inner s)

/-- A place of a routine and the code from there on. -/
def place (s : Spot) (instructions : List Instr) : List Item :=
  .label (.inner s) :: code instructions

/-- A routine and its code up to the first place inside it. -/
def routine (r : Routine) (instructions : List Instr) : List Item :=
  .label (.routine r) :: code instructions

/-- Reads a line from the keyboard; the caller gives the address and the room there. -/
def readStringRoutine : List Item :=
  [.blank,
    .comment "Reads a line from the keyboard into [dx].",
    .comment "Stores at most cx-1 characters followed by a 00h terminator."] ++
  routine .readString
    [.push .ax, .push .bx, .push .cx, .push .di, .mov .di .dx, .dec .cx, .xor .bx .bx] ++
  place .nextChar
    [.mov .ah (.hex2 0x01), dosCall,
      .cmp .al (.hex2 0x0D), jumpIf .e .done,
      .cmp .al (.hex2 0x08), jumpIf .e .backspace,
      .cmp .bx .cx, jumpIf .ae .nextChar,
      .mov (.memory none .bxPlusDi) .al, .inc .bx, jumpTo .nextChar] ++
  place .backspace
    [.cmp .bx (.hex2 0), jumpIf .e .nextChar, .dec .bx, jumpTo .nextChar] ++
  place .done
    [.mov (.memory (some .byte) .bxPlusDi) (.hex2 0),
      .pop .di, .pop .cx, .pop .bx, .pop .ax, .ret]

/-- Moves to the start of the next line. -/
def newLineRoutine : List Item :=
  [.blank, .comment "Moves the cursor to the start of the next line."] ++
  routine .newLine
    [.push .ax, .push .dx, .mov .ah (.hex2 0x02),
      .mov .dl (.hex2 0x0D), dosCall,
      .mov .dl (.hex2 0x0A), dosCall,
      .pop .dx, .pop .ax, .ret]

/-- Reads a text as a number. -/
def stringToNumberRoutine : List Item :=
  [.blank,
    .comment "Parses the zero-terminated decimal string at [dx] into the word at [cx].",
    .comment "Surrounding blanks and one leading sign are accepted.",
    .comment "Returns al=1 on success, al=0 when the text is not a 16-bit signed integer."] ++
  routine .stringToNumber
    [.push .bx, .push .cx, .push .dx, .push .si, .push .di, .mov .di .cx, .mov .si .dx] ++
  [.noted (.xor .bx .bx) "magnitude",
    .noted (.xor .cx .cx) "cl: negative, ch: digit count"] ++
  place .skipLeading
    [.lodsb, .cmp .al (.chr ' '), jumpIf .e .skipLeading,
      .cmp .al (.chr '-'), jumpIf .ne .checkPlus,
      .mov .cl (.hex2 0x01), .lodsb, jumpTo .digit] ++
  place .checkPlus
    [.cmp .al (.chr '+'), jumpIf .ne .digit, .lodsb] ++
  place .digit
    [.cmp .al (.chr '0'), jumpIf .b .endDigits,
      .cmp .al (.chr '9'), jumpIf .a .endDigits,
      .sub .al (.chr '0'), .xor .ah .ah, .xchg .ax .bx,
      .mov .dx (.dec 10), .mul .dx, jumpIf .c .fail,
      .add .ax .bx, jumpIf .c .fail,
      .mov .bx .ax, .inc .ch, .lodsb, jumpTo .digit] ++
  place .endDigits
    [.cmp .ch (.hex2 0), jumpIf .e .fail] ++
  place .skipTrailing
    [.cmp .al (.chr ' '), jumpIf .ne .checkEnd, .lodsb, jumpTo .skipTrailing] ++
  place .checkEnd
    [.cmp .al (.hex2 0), jumpIf .ne .fail,
      .cmp .cl (.hex2 0), jumpIf .e .positive,
      .cmp .bx (.hex4 0x8000), jumpIf .a .fail, .neg .bx, jumpTo .store] ++
  place .positive
    [.cmp .bx (.hex4 0x7FFF), jumpIf .a .fail] ++
  place .store
    [.mov (.memory none .di) .bx, .mov .al (.hex2 0x01), jumpTo .done] ++
  place .fail
    [.mov .al (.hex2 0)] ++
  place .done
    [.pop .di, .pop .si, .pop .dx, .pop .cx, .pop .bx, .ret]

/-- Prints a number. -/
def printNumberRoutine : List Item :=
  [.blank, .comment "Prints dx as a signed decimal number."] ++
  routine .printNumber
    [.push .ax, .push .bx, .push .cx, .push .dx, .mov .ax .dx,
      .cmp .ax (.hex2 0), jumpIf .ge .positive,
      .push .ax, .mov .ah (.hex2 0x02), .mov .dl (.chr '-'), dosCall, .pop .ax] ++
  [.noted (.neg .ax) "8000h stays 8000h and prints as 32768 below"] ++
  place .positive
    [.mov .bx (.dec 10), .xor .cx .cx] ++
  place .divide
    [.xor .dx .dx, .div .bx, .push .dx, .inc .cx, .cmp .ax (.hex2 0), jumpIf .ne .divide] ++
  place .printDigit
    [.pop .dx, .add .dl (.chr '0'), .mov .ah (.hex2 0x02), dosCall, .loop (.inner .printDigit),
      .pop .dx, .pop .cx, .pop .bx, .pop .ax, .ret]

/-- Prints a text. -/
def printStringRoutine : List Item :=
  [.blank, .comment "Prints the zero-terminated string at [dx]."] ++
  routine .printString
    [.push .ax, .push .dx, .push .si, .mov .si .dx] ++
  place .nextChar
    [.lodsb, .cmp .al (.hex2 0), jumpIf .e .done,
      .mov .dl .al, .mov .ah (.hex2 0x02), dosCall, jumpTo .nextChar] ++
  place .done
    [.pop .si, .pop .dx, .pop .ax, .ret]

/-- Ends the program, with an exit code of zero. -/
def terminateRoutine : List Item :=
  .blank :: routine .terminateProgram [.mov .ax (.hex4 0x4C00), dosCall]

/-- Loads the message of an error. -/
def loadMessage (r : Routine) : Instr :=
  .mov .dx (.address (.message r))

/-- End the program with a message, each in its own words. -/
def errorRoutines : List Item :=
  .blank :: routine .divisionByZero
    [loadMessage .divisionByZero, .jmp (.routine .runtimeError)] ++
  .blank :: routine .arithmeticOverflow
    [loadMessage .arithmeticOverflow, .jmp (.routine .runtimeError)] ++
  .blank :: routine .pcOutOfRange [loadMessage .pcOutOfRange] ++
  [.blank, .comment "Prints the message at [dx] and exits with status 1."] ++
  routine .runtimeError
    [.call (.routine .newLine), .call (.routine .printString), .call (.routine .newLine),
      .mov .ax (.hex4 0x4C01), dosCall]

/-- The messages of the errors. -/
def errorMessages : List Item :=
  [.blank,
    .storage (.message .divisionByZero) (.text "Runtime error: division by zero"),
    .storage (.message .arithmeticOverflow) (.text "Runtime error: arithmetic overflow"),
    .storage (.message .pcOutOfRange) (.text "Runtime error: PC out of range")]

/-- What stands behind the storage of a program. -/
def routines : List Item :=
  routinesHeading ++ readStringRoutine ++ newLineRoutine ++ stringToNumberRoutine ++
    printNumberRoutine ++ printStringRoutine ++ terminateRoutine ++ errorRoutines ++
    errorMessages

end LineBasic.Assembly
