/-!
The script that a command is given to make dumps. It runs under the interpreter of the sources.
-/

namespace SpecUpgrade.Project

/-- The lines of the script that prints the tree of a source as a dump. -/
def dumpScriptLines : List String :=
  ["# Prints the AST of one Ruby file in the S-expression form respec reads:",
   "#",
   "#   (send @4..14 (send @4..5 nil :a) :should (send @13..14 nil :b))",
   "#",
   "# Ranges are byte offsets. Heredoc literals also carry `~begin..end`, the",
   "# body through the terminator line.",
   "#",
   "# Usage: ruby ast_dump.rb FILE",
   "",
   "require 'json'",
   "require 'parser/current'",
   "",
   "module RespecAstDump",
   "  BARE_SYMBOL = /\\A[^\\s()\":]+\\z/",
   "",
   "  class Writer",
   "    def initialize(source)",
   "      @out = +''",
   "      @byte_offsets = nil",
   "      return if source.ascii_only?",
   "",
   "      offsets = [0]",
   "      source.each_char \x7b |c| offsets << offsets.last + c.bytesize \x7d",
   "      @byte_offsets = offsets",
   "    end",
   "",
   "    attr_reader :out",
   "",
   "    def node(node)",
   "      @out << '(' << node.type.to_s",
   "      loc = node.location",
   "      range(' @', loc.expression) if loc.expression",
   "      if loc.respond_to?(:heredoc_body) && loc.heredoc_body && loc.heredoc_end",
   "        @out << \" ~#\x7bbyte(loc.heredoc_body.begin_pos)\x7d..#\x7bbyte(loc.heredoc_end.end_pos)\x7d\"",
   "      end",
   "      node.children.each do |child|",
   "        @out << ' '",
   "        value(child)",
   "      end",
   "      @out << ')'",
   "    end",
   "",
   "    private",
   "",
   "    def range(prefix, r)",
   "      @out << \"#\x7bprefix\x7d#\x7bbyte(r.begin_pos)\x7d..#\x7bbyte(r.end_pos)\x7d\"",
   "    end",
   "",
   "    def byte(char_offset)",
   "      @byte_offsets ? @byte_offsets.fetch(char_offset) : char_offset",
   "    end",
   "",
   "    def value(child)",
   "      case child",
   "      when Parser::AST::Node then node(child)",
   "      when nil then @out << 'nil'",
   "      when true then @out << 'true'",
   "      when false then @out << 'false'",
   "      when Integer then @out << child.to_s",
   "      when Float then @out << (child.finite? ? child.to_s : string(child.to_s))",
   "      when Symbol",
   "        name = child.to_s",
   "        @out << ':' << (name.match?(BARE_SYMBOL) ? name : string(name))",
   "      when String then @out << string(child)",
   "      else @out << string(child.to_s)",
   "      end",
   "    end",
   "",
   "    def string(text)",
   "      text.dup.force_encoding(Encoding::UTF_8).scrub('?').to_json",
   "    end",
   "  end",
   "",
   "  def self.run(path)",
   "    source = File.read(path, mode: 'rb').force_encoding(Encoding::UTF_8)",
   "    buffer = Parser::Source::Buffer.new(path, source: source)",
   "    parser = Parser::CurrentRuby.new",
   "    parser.diagnostics.all_errors_are_fatal = true",
   "    parser.diagnostics.ignore_warnings = true",
   "",
   "    ast = parser.parse(buffer)",
   "    writer = Writer.new(source)",
   "    if ast",
   "      writer.node(ast)",
   "    else",
   "      writer.out << '(begin @0..0)'",
   "    end",
   "    $stdout.write(writer.out)",
   "    $stdout.write(\"\\n\")",
   "  rescue Parser::SyntaxError => e",
   "    warn \"#\x7bpath\x7d: #\x7be.message\x7d\"",
   "    exit 1",
   "  end",
   "end",
   "",
   "RespecAstDump.run(ARGV.fetch(0))"]

def dumpScript : String := String.join (dumpScriptLines.map (· ++ "\n"))

end SpecUpgrade.Project
